/-
  File:      DifuzzRtl/Mutator/Generator.lean
  Subject:   The instruction generators (src/inst_generator.py) and the words they make
             (the `word_*` functions of src/word.py).

  * `GeneratorKind` -- the twelve generators; `selectOpcode` and `processOpcode` are what the
    subclasses override.
  * A handler makes the type and the instructions of a word from an opcode, the text of its
    instruction and its operands, and may add operands.
  * `getWord` -- a word that is not populated yet, with the next label of its part.
  * `getSymbol`, `populateWord` -- the values of the operands.
-/
import Mathlib.Data.Int.Bitwise
import DifuzzRtl.Mutator.Definitions
import DifuzzRtl.Mutator.SimInput

namespace Difuzz.Mutator

open Text

/-! ## 1. Addresses -/

def maxAddr : Nat := 2 ^ 64 - 1

def pageSize : Nat := 4096

def maxUserAddr : Nat := 2 ^ 48 - 1

/-- The function attributes, set at the first call. -/
def pageBases : Rand (Nat × Nat) := do
  let w ← get
  let hot ← match w.hotPageBase with
    | some b => pure b
    | none => randrange maxAddr pageSize
  let cross ← match w.crossLinePageBase with
    | some b => pure b
    | none => randrange maxUserAddr pageSize
  modify fun w => { w with hotPageBase := some hot, crossLinePageBase := some cross }
  return (hot, cross)

/-- `generate_random_address_for_store_load`. The address of an object (`id`) is any number. -/
def addressForStoreLoad : Rand Int := do
  let (hot, cross) ← pageBases
  match ← choices [0, 1, 2, 3, 4, 5, 6] [36, 54, 27, 45, 18, 20, 20] with
  | 0 => return ← randint 0 (pageSize / 2 : Nat)
  | 1 => do
      let base ← randrange maxAddr pageSize
      let offset ← choice [0, pageSize - 1, pageSize, pageSize + 1]
      return (base + offset : Nat)
  | 2 => return (maxAddr : Int) - (← randint 0 (10 * pageSize : Nat))
  | 3 => do
      let val := (← randnat 0 (maxAddr - 1)) ||| (← randnat 1 7)
      if (← percent) < 70 then return (val ||| 0xFFF : Nat) else return (val : Nat)
  | 4 => do
      let refPoint ← draw
      return refPoint + (← randint (-2 * 1024 * 1024) (2 * 1024 * 1024))
  | 5 => do
      let base ← if (← percent) < 10 then randrange maxAddr pageSize else pure hot
      modify fun w => { w with hotPageBase := some base }
      if (← percent) < 50 then return (base + (← randnat 0 (pageSize - 1)) : Nat)
      else return (base + (60 + 64 * (← randnat 0 ((pageSize - 8 - 60) / 64))) : Nat)
  | _ => return (cross + (← choice [0x40 - 4, 0x80 - 4, 0xC0 - 4]) : Nat)

/-- `generate_random_address_for_jump`. -/
def addressForJump : Rand Int := do
  match ← choices [0, 1, 2, 3] [35, 5, 15, 15] with
  | 0 => return 0x80000000 + (← randint (-65536) 65536)
  | 1 => do
      let dataRef ← draw
      return dataRef + (← randint (-4096) 4096)
  | 2 => do
      let base := 0x80000000 + (← randrange 0x10000 pageSize)
      return (base + (← choice [0, pageSize - 4, pageSize]) : Nat)
  | _ => do
      let addr := (← randnat 0x80000000 (0x90000000 - 1)) ||| (← randnat 1 3)
      if (← percent) < 70 then return (addr ||| 0xFFF : Nat) else return (addr : Nat)

/-! ## 2. Words -/

/-- The operands of a word, which the handlers add to. -/
structure Operands where
  xregs : List Text
  fregs : List Text
  imms : List (Text × Nat)
  symbols : List Text

namespace Operands

def addXreg (ops : Operands) (x : Text) : Operands := { ops with xregs := ops.xregs ++ [x] }

def addImm (ops : Operands) (i : String) (align : Nat) : Operands :=
  { ops with imms := ops.imms ++ [(i.toList, align)] }

def addSymbol (ops : Operands) : Operands := { ops with symbols := ops.symbols ++ ["symbol".toList] }

end Operands

/-- The type of a word, its instructions and their operands. -/
structure Shape where
  tpe : Tpe
  insts : List Text
  ops : Operands

abbrev Handler := String → Text → Operands → Rand Shape

/-- `form.format(arg)`. -/
def formatForm (form arg : Text) : Text := replace "\x7b\x7d".toList arg form

def wordJal : Handler := fun _ form ops => return ⟨.cfJ, [form], ops⟩

def wordJalr : Handler := fun _ form ops =>
  return ⟨.cfJ, ["la xreg1, symbol".toList, form], ops.addSymbol⟩

def wordBranch : Handler := fun _ form ops => return ⟨.cfBr, [form], ops⟩

def wordRet : Handler := fun _ form ops =>
  let epc :=
    if form = "mret".toList then "mepc" else if form = "sret".toList then "sepc" else "uepc"
  return ⟨.cfRet,
    ["la xreg0, symbol".toList, "csrrw zero, ".toList ++ epc.toList ++ ", xreg0".toList, form],
    (ops.addXreg "xreg0".toList).addSymbol⟩

/-- The address is masked in one of ten words. -/
def maskAddr (ops : Operands) : Rand (List Text × Operands) := do
  if (← percent) < 10 then
    return (["lui xreg2, 0xffe00".toList, "xor xreg1, xreg1, xreg2".toList],
      ops.addXreg "xreg2".toList)
  else return ([], ops)

/-- A memory access through `xreg1`, with the instructions that prepare it. -/
def wordMem (tpe : Tpe) (prepare : List Text) (form : Text) (ops : Operands) : Rand Shape := do
  let (mask, ops) ← maskAddr ops
  return ⟨tpe, "la xreg1, symbol".toList :: (prepare ++ mask ++ [form]), ops.addSymbol⟩

def wordMemR : Handler := fun _ form ops => wordMem .memR [] form ops

def wordMemW : Handler := fun _ form ops => wordMem .memW [] form ops

def wordAtomic : Handler := fun opcode form ops =>
  wordMem .memW ["addi xreg1, xreg1, imm6".toList] form
    (ops.addImm "imm6" (if (rv64aRtype.map (·.name)).contains opcode then 8 else 4))

/-- A random bit, shifted. -/
def bitAt (n : Nat) : Rand Nat := do return (← randnat 0 1) <<< n

def csrRandint (csr : String) : Rand Nat := do
  if ["mstatus", "sstatus", "vsstatus"].contains csr then
    let mie ← bitAt 3
    let mpie ← bitAt 7
    let mpp := (← choice [0, 1, 3]) <<< 11
    let fs := (← choice [0, 1, 3]) <<< 13
    let sd ← bitAt 31
    return mie ||| mpie ||| mpp ||| fs ||| sd
  else if ["mip", "sip", "vsip"].contains csr then
    return (← bitAt 0) ||| (← bitAt 1) ||| (← bitAt 5) ||| (← bitAt 9)
  else if ["mie", "sie", "vsie"].contains csr then
    return (← bitAt 0) ||| (← bitAt 3) ||| (← bitAt 7) ||| (← bitAt 11)
  else if ["hstatus", "vsstatus"].contains csr then
    return (← bitAt 7) ||| (← bitAt 9) ||| (← randnat 0 63) <<< 18
  else if ["satp", "vsatp"].contains csr then
    return (← choice [0, 8, 9]) <<< 60 ||| (← randnat 0 0xFFFF) <<< 44 ||| (← randnat 0 0xFFFFF)
  else if csr = "0xBC2" then
    let cmode ← choice [0, 1]
    let bClear := (← choice [0, 1]) <<< 1
    let bme := (← choices [0, 1] [1, 9]) <<< 2
    let bma := (← randnat 0x800000000 0xA00000000) <<< 3
    return cmode ||| bClear ||| bme ||| bma
  else if csr = "0xBC3" then
    let mode ← choices [0, 1, 2, 3] [1, 3, 3, 3]
    if mode = 0 then return mode <<< 60
    else return mode <<< 60 ||| 0x80032000 ||| (← randnat 0 0x3F) <<< 54
  else if ["menvcfg", "senvcfg", "henvcfg"].contains csr then
    return (← choice [0, 1, 3]) <<< 4 ||| (← choice [0, 1]) <<< 6 ||| (← choice [0, 1]) <<< 7
  else if contains ['s'] csr.toList then randnat 0 0xFFFFFFFF
  else randnat 0 0xFFFFFFFFFFFFFFFF

def csrRegisterOps : List String := ["csrrw", "csrrs", "csrrc"]

def csrOps : List String := csrRegisterOps ++ ["csrrwi", "csrrsi", "csrrci"]

/-- The name of a register from the list, or a number in one of a hundred words. -/
def chooseCsr (csrs : List String) : Rand Text := do
  if (← percent) < 99 then return (← choice csrs).toList
  else return "0x".toList ++ digits 16 (← randnat 0 0xFFF)

/-- The source operand of a CSR instruction, and the instruction that prepares it. -/
def csrSource (opcode : String) (csr : Text) (rs1 : Text) : Rand (List Text × Text) := do
  if csrRegisterOps.contains opcode then
    match ← choices [0, 1, 2, 3] [1, 1, 7, 1] with
    | 0 => return (["mv ".toList ++ rs1 ++ ", zero".toList], rs1)
    | 1 => return (["li ".toList ++ rs1 ++ ", -1".toList], rs1)
    | 2 => do
        let value ← csrRandint (String.ofList csr)
        return (["li ".toList ++ rs1 ++ ", ".toList ++ digits 10 value], rs1)
    | _ => return ([], rs1)
  else return ([], digits 10 ((← csrRandint (String.ofList csr)) &&& 31))

/-- Some words start from a fixed context. -/
def csrContext : Rand (List Text) := do
  if (← percent) < 30 then
    if (← percent) < 20 then return ["csrwi mstatus, 0".toList, "csrwi mie, 0".toList]
    else return ["csrwi mstatus, 0".toList]
  else return []

/-- Some words use the result. -/
def csrFakeUse (rd : Text) : Rand (List Text) := do
  if (← percent) < 80 then
    return ["addi x".toList ++ digits 10 (← randnat 0 31) ++ ", ".toList ++ rd ++ ", 0".toList]
  else return []

/-- Some words store it. -/
def csrStore (rd : Text) : Rand (List Text) := do
  if (← percent) < 30 then return ["sw ".toList ++ rd ++ ", 0(sp)".toList] else return []

def tempRegs : List String := ["x5", "x6", "x7", "x28", "x29", "x30", "x31"]

def wordCsrCsrs (csrs : List String) : Handler := fun opcode form ops => do
  let csr ← chooseCsr csrs
  if contains "pmpaddr".toList csr && csrRegisterOps.contains opcode then
    return ⟨.memR, ["la xreg1, symbol".toList, "srai xreg1, xreg1, 1".toList, formatForm form csr],
      ops.addSymbol⟩
  else
    let rd := (← choice tempRegs).toList
    let rs1 := (← choice tempRegs).toList
    let context ← csrContext
    let (source, rs1) ← csrSource opcode csr rs1
    let use ← csrFakeUse rd
    let store ← csrStore rd
    return ⟨.csr, context ++ source ++
      [opcode.toList ++ [' '] ++ rd ++ ", ".toList ++ csr ++ ", ".toList ++ rs1] ++ use ++ store, ops⟩

def wordCsr : Handler := wordCsrCsrs csrNames

def wordSfence : Handler := fun _ form ops => do
  let pt ← choice ["pt0", "pt1", "pt2", "pt3"]
  return ⟨.none,
    ["li xreg0, uimm1".toList, "la xreg1, ".toList ++ pt.toList, "addi xreg1, xreg1, uimm6".toList,
      form],
    (ops.addImm "uimm1" 1).addImm "uimm6" 8⟩

def wordFp : Handler := fun _ form ops => return ⟨.none, [formatForm form "rne".toList], ops⟩

/-- The entry of `opcodes_words` for an opcode. -/
def opcodesWords (opcode : String) : Option Handler :=
  if opcode = "jal" then some wordJal
  else if opcode = "jalr" then some wordJalr
  else if (rv32iBtype.map (·.name)).contains opcode then some wordBranch
  else if ["mret", "sret", "uret"].contains opcode then some wordRet
  else if ["lb", "lh", "lw", "ld", "lbu", "lhu", "lwu", "flw", "fld", "flq"].contains opcode then
    some wordMemR
  else if ["sb", "sh", "sw", "sd", "fsw", "fsd", "fsq"].contains opcode then some wordMemW
  else if ((rv32aRtype ++ rv64aRtype).map (·.name)).contains opcode then some wordAtomic
  else if csrOps.contains opcode then some wordCsr
  else if opcode = "sfence.vma" then some wordSfence
  else if ((rv32f ++ rv64fRtype).map (·.name)).contains opcode then some wordFp
  else none

def wordPlain : Handler := fun _ form ops => return ⟨.none, [form], ops⟩

/-! ## 3. The generators -/

inductive GeneratorKind where
  | counterTimer
  | exceptions
  | interrupt
  | randSwitch
  | randomInst
  | illLow2high
  | m2sLegalSwitch
  | s2uLegalSwitch
  | hyperviser
  | bitmapr
  | mpt
  | cbo
  deriving DecidableEq, Repr

/-- `generator_list`. -/
def generatorList : List GeneratorKind :=
  [.counterTimer, .exceptions, .interrupt, .randSwitch, .randomInst, .illLow2high, .m2sLegalSwitch,
   .s2uLegalSwitch, .hyperviser, .bitmapr, .mpt, .cbo]

/-- `GENERATOR_SELECTOR` of src/config.py. -/
def generatorSelector : List Nat := [0, 0, 0, 0, 0, 0, 0, 0, 0, 0, 0, 1]

namespace GeneratorKind

def templates : GeneratorKind → List Template
  | .illLow2high => [.pU]
  | .m2sLegalSwitch => [.pM]
  | .s2uLegalSwitch => [.pS]
  | .hyperviser => [.vU]
  | .bitmapr | .mpt => [.pt]
  | .cbo => [.pM]
  | _ => [.pM, .pS, .pU]

def names (os : List Opcode) : List String := os.map (·.name)

/-- `BaseInstGenerator._select_opcode`. -/
def baseSelect (part : Part) : Rand String :=
  if part = .prefixPart then choice (names rvZicsr) else choice opcodesMap.keys

/-- Some generators choose from a list of their own, with a probability, in some parts. -/
def selectFrom (p : Nat) (parts : List Part) (own : Rand String) (part : Part) : Rand String := do
  if (← percent) < p ∧ part ∈ parts then own else baseSelect part

def selectOpcode : GeneratorKind → Part → Rand String
  | .counterTimer => selectFrom 30 [.mainPart, .suffixPart] (choice csrRegisterOps)
  | .exceptions => selectFrom 20 [.mainPart, .suffixPart]
      (choices ["jalr", "ebreak", "lw", "sw", "ecall"] [1, 2, 10, 10, 2])
  | .interrupt => selectFrom 30 [.mainPart] (return "csrrs")
  | .randSwitch => selectFrom 20 [.mainPart, .suffixPart]
      (choice (names rvZicsr ++ names rvZifencei ++ ["fence", "ecall", "ebreak", "mret", "sret"]))
  | .randomInst => baseSelect
  | .illLow2high => selectFrom 40 [.mainPart, .suffixPart] do
      let dice ← randnat 0 100
      if dice < 20 then choice ["sret", "mret", "sfence.vma", "csrrw"]
      else if dice < 30 then return "ecall"
      else choice ["csrrs", "csrrc", "csrrw"]
  | .m2sLegalSwitch => selectFrom 30 [.mainPart] (return "csrrw")
  | .s2uLegalSwitch => selectFrom 20 [.mainPart] (return "csrrw")
  | .hyperviser => selectFrom 70 [.mainPart, .suffixPart]
      (choice (names rvZicsr ++ names hvInstructions ++ names rv32iStype ++ names rv32iItype ++
        names rv32iJtype))
  | .bitmapr | .mpt => selectFrom 70 [.mainPart, .suffixPart]
      (choice (names rvZicsr ++ names rv32iStype ++ names rv32iItype))
  | .cbo => selectFrom 50 [.mainPart, .suffixPart] (choice (names cboInstructions))

/-! ### Handlers of single generators -/

/-- `li xreg1, address` in front of the instruction. -/
def wordAt (tpe : Tpe) (address : Rand Int) : Handler := fun _ form ops => do
  return ⟨tpe, ["li xreg1, ".toList ++ intText (← address), form], ops⟩

/-- A load or a store at a random address: `sw` is a store. -/
def wordMemAt (address : Rand Int) : Handler := fun opcode =>
  wordAt (if opcode = "sw" then .memW else .memR) address opcode

/-- A CSR word that sets up to three bits of its operand. -/
def wordCsrR : Handler := fun _ form ops => do
  let csr ← choice ["sstatus", "mstatus", "sepc", "mepc"]
  let k ← randnat 0 3
  let bits ← (List.range k).mapM fun i => do
    let setBits ← choice [1, 3]
    let offset ← randnat 0 31
    let x := "xreg".toList ++ digits 10 (i + 2)
    return (x, ["addi ".toList ++ x ++ ", zero, ".toList ++ digits 10 setBits,
      "slli ".toList ++ x ++ ", ".toList ++ x ++ ", ".toList ++ digits 10 offset,
      "add xreg1, xreg1, ".toList ++ x])
  return ⟨.csr, "xor xreg1, xreg1, xreg1".toList :: ((bits.map (·.2)).flatten ++
    [formatForm form csr.toList]), { ops with xregs := ops.xregs ++ bits.map (·.1) }⟩

/-- The way to a lower mode: the saved counter, or the status with its mode cleared. -/
def wordSwitch (epc status : String) (clear : Int) (more : List Text) (back : String)
    (backAfterEpc : Bool) : Handler := fun _ form ops => do
  let csr ← choice [epc, status]
  if csr = epc then
    return ⟨.csr, ["auipc xreg1, 0".toList, "addi  xreg1, xreg1, 16".toList,
      formatForm form csr.toList] ++ (if backAfterEpc then [back.toList] else []), ops⟩
  else
    let x := "xreg".toList ++ digits 10 ((← randnat 0 3) + 3)
    return ⟨.csr, ["csrr xreg1, ".toList ++ status.toList,
      "li  ".toList ++ x ++ ", ".toList ++ intText clear, "and xreg1, xreg1, ".toList ++ x] ++ more ++
      [formatForm form csr.toList, back.toList], ops.addXreg x⟩

/-- `_word_csrrw` of `M2SLegalSwitchGenerator`. -/
def wordM2s : Handler :=
  wordSwitch "mepc" "mstatus" (-6145) ["ori xreg1, xreg1, -2048".toList] "mret" true

/-- `_word_csrrw` of `S2ULegalSwitchGenerator`: there is no return after `sepc` is written. -/
def wordS2u : Handler := wordSwitch "sepc" "sstatus" (-769) [] "sret" false

def wordCsrrs : Handler := fun _ form ops => do
  let offset ← randnat 0 16
  return ⟨.csr, ["li xreg1, ".toList ++ digits 10 (1 <<< offset), "csrs mip, xreg1".toList,
    formatForm form "mie".toList], ops⟩

def wordEcall : Handler := fun _ form ops => do
  if (← percent) < 70 then
    let v ← choice [1 <<< 11, 0]
    return ⟨.none, ["li xreg0, ".toList ++ digits 10 v, "csrw mstatus, xreg0".toList, form],
      ops.addXreg "xreg0".toList⟩
  else return ⟨.none, [form], ops⟩

/-- `_word_csr` of `CounterTimerGenerator`. -/
def wordCounter : Handler := fun _ form ops => do
  let reg ← choice (counterTimers ++ csrNames)
  let inst := formatForm form reg.toList
  if reg = "time" then
    let v ← choice [0x1, 0x2, 0x100, -2048, 2047, -1, 0x80]
    return ⟨.csr, ["csrr xreg1, ".toList ++ reg.toList, "addi xreg1, xreg1, ".toList ++ intText v,
      inst], ops⟩
  else return ⟨.csr, List.replicate (← randnat 0 10) inst ++ [inst], ops⟩

/-- A CSR word over three random registers and the own ones of the generator. -/
def wordCsrOwn (own : List String) : Handler := fun opcode form ops => do
  let csrs ← sample 3 csrNames
  wordCsrCsrs (csrs ++ own) opcode form ops

/-- `_word_sfence` of the generators without page tables of their own. -/
def wordSfencePlain : Handler := fun _ form ops =>
  return ⟨.none, ["li xreg0, uimm1".toList, "addi xreg1, xreg0, uimm6".toList, form],
    (ops.addImm "uimm1" 1).addImm "uimm6" 8⟩

def mptAddress : Rand Int := do
  let addr ← addressForStoreLoad
  if (← percent) < 30 then return Int.lor addr 0xFFF else return addr

/-- `_word_mem` of `MptGenerator`: the type is set for `lw` and `sw` only, and read for all. -/
def wordMemMpt : Handler := fun opcode form ops => do
  if opcode = "lw" ∨ opcode = "sw" then wordMemAt mptAddress opcode form ops
  else
    let _ ← mptAddress
    throw .unboundLocal

/-- What a generator does with some opcodes in place of `opcodes_words`. -/
def ownHandler (k : GeneratorKind) (opcode : String) : Option Handler :=
  match k with
  | .randSwitch | .randomInst => none
  | .illLow2high => if csrRegisterOps.contains opcode then some wordCsrR else none
  | .m2sLegalSwitch => if opcode = "csrrw" then some wordM2s else none
  | .s2uLegalSwitch => if opcode = "csrrw" then some wordS2u else none
  | .interrupt => if opcode = "csrrs" then some wordCsrrs else none
  | .exceptions =>
      if opcode = "jalr" then some (wordAt .cfJ addressForJump)
      else if opcode = "lw" ∨ opcode = "sw" then some (wordMemAt addressForStoreLoad)
      else if opcode = "ecall" then some wordEcall
      else none
  | .counterTimer => if csrRegisterOps.contains opcode then some wordCounter else none
  | .hyperviser =>
      if opcode = "sfence.vma" then some wordSfencePlain
      else if csrOps.contains opcode then some (wordCsrCsrs (csrNames ++ hvCsrs))
      else none
  | .bitmapr =>
      if csrOps.contains opcode then some (wordCsrOwn csrBitmap)
      else if opcode = "sfence.vma" then some wordSfencePlain
      else if opcode = "lw" ∨ opcode = "sw" then some (wordMemAt addressForStoreLoad)
      else none
  | .mpt =>
      if csrOps.contains opcode then some (wordCsrOwn csrMpt)
      else if opcode = "sfence.vma" then some wordSfencePlain
      else if opcode = "jalr" then some (wordAt .cfJ addressForJump)
      else if ["lw", "sw", "lb", "lh", "ld", "lbu", "lhu", "lwu", "flw", "fld", "flq", "sb", "sh", "sd",
        "fsw", "fsd", "fsq"].contains opcode then some wordMemMpt
      else none
  | .cbo =>
      if (names cboInstructions).contains opcode ∧ opcode ≠ "prefetch.i" then
        some (wordAt .memR addressForStoreLoad)
      else if opcode = "prefetch.i" then some (wordAt .cfJ addressForJump)
      else if csrOps.contains opcode then some (wordCsrOwn csrsCbo)
      else if opcode = "sfence.vma" then some wordPlain
      else none

/-- `ExceptionGenerator` puts a raw word into some of its longer words. -/
def insertRaw (insts : List Text) : Rand (List Text) := do
  if (← percent) < 5 ∧ 2 < insts.length then
    let position ← randnat 0 insts.length
    let raw ← randnat 0 0xFFFF
    return insts.take position ++
      [".word 0x".toList ++ (digits 16 raw).map Char.toUpper] ++ insts.drop position
  else return insts

def processOpcode (k : GeneratorKind) : Handler := fun opcode form ops => do
  let handler := ((k.ownHandler opcode).or (opcodesWords opcode)).getD wordPlain
  let shape ← handler opcode form ops
  if k = .exceptions then return { shape with insts := ← insertRaw shape.insts } else return shape

end GeneratorKind

/-! ## 4. Generators at work -/

/-- The state of a generator: the next labels and what was used before. -/
structure Generator where
  kind : GeneratorKind
  pNum : Nat := 0
  lNum : Nat := 0
  sNum : Nat := 0
  usedXNums : List Nat := []
  usedFNums : List Nat := []
  usedImms : List Int := []
  deriving DecidableEq, Repr

/-- `set.add`. -/
def addNew {α : Type} [DecidableEq α] (l : List α) (a : α) : List α := if a ∈ l then l else l ++ [a]

namespace Generator

def num (g : Generator) : Part → Nat
  | .prefixPart => g.pNum
  | .mainPart => g.lNum
  | .suffixPart => g.sNum

def next (g : Generator) : Part → Generator
  | .prefixPart => { g with pNum := g.pNum + 1 }
  | .mainPart => { g with lNum := g.lNum + 1 }
  | .suffixPart => { g with sNum := g.sNum + 1 }

/-- The table an opcode is looked up in. -/
def lookup (opcode : String) : Except Exn Opcode :=
  match (hvInstructions ++ cboInstructions).find? (·.name == opcode) with
  | some o => .ok o
  | none =>
      match opcodesMap.get? opcode with
      | some o => .ok o
      | none => .error .key

def operandsOf (o : Opcode) : Operands where
  xregs := o.xregs.map String.toList
  fregs := o.fregs.map String.toList
  imms := o.imms.map fun i => (i.1.toList, i.2)
  symbols := o.symbols.map String.toList

def getWord (g : Generator) (part : Part) : Rand (Word × Generator) := do
  let opcode ← g.kind.selectOpcode part
  let o ← lift (lookup opcode)
  let shape ← g.kind.processOpcode opcode o.form.toList (operandsOf o)
  let word : Word :=
    { label := g.num part
      insts := shape.insts
      tpe := shape.tpe
      xregs := shape.ops.xregs
      fregs := shape.ops.fregs
      imms := shape.ops.imms
      symbols := shape.ops.symbols }
  return (word, g.next part)

/-- A used value is taken again with probability `thres`, 0.2. -/
def again {α : Type} (used : List α) : Rand Bool := do
  if used.isEmpty then return false else return decide ((← percent) < 20)

/-- The number of a register, from a region of `xNums`. -/
def xNum (g : Generator) (region : Nat × Nat) : Rand (Nat × Generator) := do
  if ← (if region = (0, 31) then again g.usedXNums else pure false) then
    return (← choice g.usedXNums, g)
  else
    let n ← choice (((List.range 32).take region.2).drop region.1)
    return (n, { g with usedXNums := addNew g.usedXNums n })

def getXregs (g : Generator) (region : Nat × Nat) (noZero : Bool) : Rand (Text × Generator) := do
  let (n, g) ← g.xNum region
  if noZero ∧ n = 0 then return ('x' :: digits 10 (← choice ((List.range 32).drop 1)), g)
  else return ('x' :: digits 10 n, g)

def getFregs (g : Generator) : Rand (Text × Generator) := do
  if ← again g.usedFNums then return ('f' :: digits 10 (← choice g.usedFNums), g)
  else
    let n ← choice (List.range 32)
    return ('f' :: digits 10 n, { g with usedFNums := addNew g.usedFNums n })

/-- `_get_int`. -/
def getInt : Rand Int := do
  let sl ← addressForStoreLoad
  let j ← addressForJump
  choice [0x0, 0x1, 0x2, 0x3, 0x4, 0x8, 0x0F, 0x10, 0x1F, 0x7F, 0x300, 0x305, 0x7FF, 0x555, 0xAAA,
    0x800, 0xFFF, 0xFFE, 0xFFC, 0x1000, 0x7FFFF, 0xFFE00, 0x12345678, 0x7FFFFFFF, 0x7F800000,
    0xFF800000, 0x7FC00000, 0x7F7FFFFF, 0x80000000, 0xFFFFFFFF, 0xFFF80000, sl, j]

/-- The bits of an immediate that may be set: its width, and zeros where it is aligned. -/
def immMask (iName : Text) (align : Nat) : Except Exn Nat :=
  let isUnsigned := contains "uimm".toList iName
  match pyInt 10 (if isUnsigned then iName.drop 4 else iName.drop 3) with
  | none => .error .value
  | some n =>
      let width := if isUnsigned then n else n - 1
      if width < 0 then .error .value
      else .ok ((2 ^ width.toNat - 1) - (2 ^ width.toNat - 1) % align)

/-- A used immediate, one of the seeds, or any number up to the mask. -/
def immValue (g : Generator) (mask : Nat) : Rand (Int × Generator) := do
  let rand ← percent
  if g.usedImms ≠ [] ∧ rand < 20 then return (← choice g.usedImms, g)
  else
    let imm ← if rand < 20 + 30 then getInt else randint 0 mask
    return (imm, { g with usedImms := addNew g.usedImms imm })

/-- `_get_imm`, for an alignment that is a power of two. Its test `random.random() < 1` always
    holds. -/
def getImm (g : Generator) (iName : Text) (align : Nat) : Rand (Text × Generator) := do
  if align &&& (align - 1) ≠ 0 then throw .assertion
  else
    let sign ← if contains "uimm".toList iName then pure [] else choice [[], ['-']]
    let mask ← lift (immMask iName align)
    let _ ← percent
    let (imm, g) ← g.immValue mask
    return (sign ++ intText (Int.land mask imm), g)

/-- `_get_symbol`: data for a store, data or code for a load, a later label for the rest. -/
def getSymbol (tpe : Tpe) (currentLabel maxLabel : Int) (part : Part) : Rand Text := do
  let datum : Rand Text := do
    let i ← randnat 0 5
    let j ← randnat 0 27
    return ['d', '_'] ++ digits 10 i ++ ['_'] ++ digits 10 j
  match tpe with
  | .memW => datum
  | .memR => do
      if (← percent) < 20 then return part.text ++ intText (← randint 0 maxLabel) else datum
  | _ => return part.text ++ intText (← randint (currentLabel + 1) maxLabel)

/-- Values for a list of operands, one after the other. -/
def fill {α : Type} (f : Generator → α → Rand (Text × Generator)) (name : α → Text) :
    Generator → Dict Text Text → List α → Rand (Dict Text Text × Generator)
  | g, vals, [] => return (vals, g)
  | g, vals, a :: as => do
      let (v, g) ← f g a
      fill f name g (vals.set (name a) v) as

def populateWord (g : Generator) (word : Word) (maxLabel : Int) (part : Part) :
    Rand (Word × Generator) := do
  if word.populated then return (word, g)
  else
    let region := if part = .prefixPart then (10, 15) else (0, 31)
    let (vals, g) ← fill (fun g _ => g.getXregs region (word.tpe ≠ .none)) id g Dict.empty word.xregs
    let (vals, g) ← fill (fun g _ => g.getFregs) id g vals word.fregs
    let (vals, g) ← fill (fun g i => g.getImm i.1 i.2) (·.1) g vals word.imms
    let (vals, g) ← fill (fun g _ => do return (← getSymbol word.tpe word.label maxLabel part, g)) id
      g vals word.symbols
    return (← lift (word.populate vals part), g)

end Generator

end Difuzz.Mutator
