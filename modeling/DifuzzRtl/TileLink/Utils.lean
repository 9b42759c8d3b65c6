/-
  File:      DifuzzRtl/TileLink/Utils.lean
  Subject:   The vocabulary of the TileLink adapter (adapters/tilelink/definitions.py) and its
             helpers (adapters/tilelink/utils.py).

  * `AOpcode`, `COpcode`, `DOpcode`, `BOpcode`, `Perm` -- the encoded enumerations; `toT`, `NtoB`,
    `TtoN` and the others are values of the `param` fields, whose meaning depends on the opcode.
  * `DMessage`, `BMessage` -- what is driven on channels D and B. The constructors take the
    fields the source takes; a field it does not set is 0.
  * `FreeList`, `SrcToCallback` -- identifiers to hand out, and the callback of each identifier.
    They are generic in what is reserved or called; calling is left to the caller.
  * `aAssertions`, `cAssertions` -- the checks of the debug mode.

  A Python exception is an `Error`.
-/
import Mathlib.Data.Nat.Bitwise
import DifuzzRtl.Lib.Collections
import DifuzzRtl.Lib.Effects

namespace Difuzz.TileLink

/-- The exceptions the adapter can raise. -/
inductive Error where
  | assertion (message : String)
  | key
  | name (n : String)
  | unboundLocal (n : String)
  | attribute (n : String)
  | type
  | value
  | notImplemented
  deriving DecidableEq, Repr

/-- `assert p, message`. -/
def check (p : Prop) [Decidable p] (message : String) : Except Error Unit :=
  if p then .ok () else .error (.assertion message)

/-- A computation that succeeds, taken apart at its first step. -/
theorem bind_ok {α β : Type} {x : Except Error α} {f : α → Except Error β} {y : β} :
    (x >>= f) = .ok y ↔ ∃ a, x = .ok a ∧ f a = .ok y := Except.bind_ok

theorem check_ok {p : Prop} [Decidable p] {message : String} {u : Unit} :
    check p message = .ok u ↔ p := by
  unfold check
  by_cases h : p
  · simp [h]
  · simp [h]

/-- The value of a computation that succeeds. -/
def valueD {α : Type} (x : Except Error α) (d : α) : α :=
  match x with
  | .ok a => a
  | .error _ => d

theorem eq_ok_valueD {α : Type} {x : Except Error α} (d : α) (h : x.isOk = true) :
    x = .ok (valueD x d) := by
  cases x with
  | error e => cases h
  | ok a => rfl

/-! ## 1. Definitions -/

inductive Protocol where
  | tlUl | tlUh | tlC
  deriving DecidableEq, Repr

/-- `protocol >= TL_UH`. -/
def Protocol.hasUh : Protocol → Bool
  | .tlUl => false
  | .tlUh | .tlC => true

/-- The opcodes of channel A: 0 to 7. -/
inductive AOpcode where
  | putFullData | putPartialData | arithmeticData | logicalData | get | intent | acquireBlock
  | acquirePerm
  deriving DecidableEq, Repr

/-- The opcodes of channel C: 0 to 7; there is no message of code 3. -/
inductive COpcode where
  | accessAck | accessAckData | hintAck | reserved | probeAck | probeAckData | release
  | releaseData
  deriving DecidableEq, Repr

inductive DOpcode where
  | accessAck | accessAckData | hintAck | grant | grantData | releaseAck
  deriving DecidableEq, Repr

inductive BOpcode where
  | probeBlock | probePerm
  deriving DecidableEq, Repr

/-- Permissions of a block. -/
inductive Perm where
  | none | branch | trunk | tip
  deriving DecidableEq, Repr

-- cap
abbrev toT : Nat := 0
abbrev toB : Nat := 1
abbrev toN : Nat := 2

-- grow
abbrev NtoB : Nat := 0
abbrev NtoT : Nat := 1
abbrev BtoT : Nat := 2

-- prune and report
abbrev TtoB : Nat := 0
abbrev TtoN : Nat := 1
abbrev BtoN : Nat := 2
abbrev TtoT : Nat := 3
abbrev BtoB : Nat := 4
abbrev NtoN : Nat := 5

/-! ## 2. Messages -/

/-- `tlDMessage`. -/
structure DMessage where
  opcode : DOpcode
  param : Nat := 0
  size : Nat
  source : Nat
  sink : Nat := 0
  data : Nat := 0
  corrupt : Nat := 0
  denied : Nat := 0
  deriving DecidableEq, Repr

/-- `tlBMessage`, for the messages the adapter sends. -/
structure BMessage where
  opcode : BOpcode
  param : Nat
  size : Nat
  source : Nat
  address : Nat
  mask : Nat
  data : Nat := 0
  deriving DecidableEq, Repr

/-! ## 3. Free lists and callbacks -/

/-- `FreeList`: identifiers, those not in use, and the requests that wait for one. -/
structure FreeList (ε : Type) where
  name : String
  initList : List Nat
  freeList : List Nat
  eventQueue : List ε

namespace FreeList

variable {ε : Type}

def new (name : String) (initList : List Nat) : FreeList ε := ⟨name, initList, initList, []⟩

/-- `get`: `random.choice` is the element at `r`, modulo the length. -/
def get (f : FreeList ε) (r : Nat) : Except Error (Nat × FreeList ε) :=
  match f.freeList[r % f.freeList.length]? with
  | some ret => .ok (ret, { f with freeList := f.freeList.erase ret })
  | none => .error (.assertion (f.name ++ " is empty"))

def empty (f : FreeList ε) : Bool := f.freeList.isEmpty

def reserve (f : FreeList ε) (e : ε) : FreeList ε := { f with eventQueue := f.eventQueue ++ [e] }

/-- `release`: the identifier is free again. The event that is to be called comes along. -/
def release (f : FreeList ε) (ret : Nat) : Except Error (FreeList ε × Option ε) := do
  check (ret ∈ f.initList) (toString ret ++ " not in " ++ f.name ++ " init_list")
  check (ret ∉ f.freeList) (toString ret ++ " already in " ++ f.name ++ " free_list")
  return ({ f with freeList := f.freeList ++ [ret], eventQueue := f.eventQueue.tail },
    f.eventQueue.head?)

end FreeList

/-- `srcToCallback`. -/
structure SrcToCallback (κ : Type) where
  name : String
  srcs : List Nat
  cMap : Dict Nat (Option κ)

namespace SrcToCallback

variable {κ : Type}

def new (name : String) (srcs : List Nat) : SrcToCallback κ :=
  ⟨name, srcs, Dict.ofList (srcs.map fun src => (src, none))⟩

def set (c : SrcToCallback κ) (src : Nat) (callback : κ) : Except Error (SrcToCallback κ) := do
  check (src ∈ c.srcs) (toString src ++ " not in " ++ c.name ++ " srcs")
  match c.cMap.get? src with
  | some (some _) => .error (.assertion (c.name ++ " duplicate callback setup"))
  | some none => return { c with cMap := c.cMap.set src (some callback) }
  | none => .error .key

/-- `call`: the callback, if there is one, is taken out. -/
def call (c : SrcToCallback κ) (src : Nat) : Except Error (Option κ × SrcToCallback κ) :=
  match c.cMap.get? src with
  | some (some callback) => .ok (some callback, { c with cMap := c.cMap.set src none })
  | some none => .ok (none, c)
  | none => .error .key

end SrcToCallback

/-! ## 4. The checks of the debug mode -/

/-- `mask & -mask`, the lowest bit of a mask. -/
def lowBit (mask : Nat) : Nat := Nat.ldiff mask (mask - 1)

section Assertions

variable (title : String) (size addr mask : Nat)

def checkAligned : Except Error Unit :=
  check (addr % 2 ^ size = 0) (title ++ ": address must be aligned to size")

def checkContiguous : Except Error Unit :=
  check (mask &&& (mask + lowBit mask) = 0) (title ++ ": bits in mask must be contiguous")

end Assertions

/-- `A_assertions`. -/
def aAssertions (opcode : AOpcode) (param size addr mask : Nat) (debug : Bool) :
    Except Error Unit :=
  if debug then
    match opcode with
    | .get => do
        check (param = 0) "GET: param must be 0"
        checkAligned "GET" size addr
        checkContiguous "GET" mask
    | .putFullData => do
        check (param = 0) "PUT_FULL_DATA: param must be 0"
        checkAligned "PUT_FULL_DATA" size addr
        checkContiguous "PUT_FULL_DATA" mask
    | .putPartialData => do
        check (param = 0) "PUT_PARTIAL_DATA: param must be 0"
        checkAligned "PUT_PARTIAL_DATA" size addr
    | .arithmeticData => do
        check (param < 5) "ARITHMETIC_DATA: param must be lower than 5"
        checkAligned "ARITHMETIC_DATA" size addr
        checkContiguous "ARITHMETIC_DATA" mask
    | .logicalData => do
        check (param < 4) "LOGICAL_DATA: param must be lower than 4"
        checkAligned "LOGICAL_DATA" size addr
        checkContiguous "LOGICAL_DATA" mask
    | .intent => do
        check (param < 2) "INTENT: param must be lower than 2"
        checkAligned "INTENT" size addr
    | .acquireBlock => do
        check (param ∈ [NtoB, NtoT, BtoT]) "ACQUIRE_BLOCK: param must be in GROW transactions"
        checkAligned "ACQUIRE_BLOCK" size addr
        checkContiguous "ACQUIRE_BLOCK" mask
    | .acquirePerm => do
        check (param ∈ [NtoB, NtoT, BtoT]) "ACQUIRE_PERM: param must be in GROW transactions"
        checkAligned "ACQUIRE_PERM" size addr
        checkContiguous "ACQUIRE_PERM" mask
  else .ok ()

/-- `C_assertions`. -/
def cAssertions (opcode : COpcode) (param size addr corrupt : Nat) (debug : Bool) :
    Except Error Unit :=
  if debug then
    match opcode with
    | .probeAck | .probeAckData => do
        check (param ∈ [TtoB, TtoN, BtoN, TtoT, BtoB, NtoN]) "PROBE_ACK: param must be PRUNE or REPORT"
        checkAligned "PROBE_ACK" size addr
        check (corrupt = 0) "PROBE_ACK: corrupt must be 0"
    | .release => do
        check (param ∈ [TtoB, TtoN, BtoN, TtoT, BtoB, NtoN])
          "RELEASE: param must be in PRUNE or REPORT transitions"
        checkAligned "RELEASE" size addr
    | .releaseData => do
        check (param ∈ [TtoB, TtoN, BtoN]) "RELEASE: param must be in PRUNE transitions"
        checkAligned "RELEASE" size addr
    | _ => .ok ()
  else .ok ()

end Difuzz.TileLink
