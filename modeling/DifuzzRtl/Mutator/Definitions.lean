/-
  File:      DifuzzRtl/Mutator/Definitions.lean
  Subject:   The instruction tables (src/riscv_definitions.py), as far as the generators for `RV64G`
             use them.

  * `Opcode` -- the text of an instruction with the names of its operands, and these operands.
  * `opcodesMap` -- the tables that `BaseInstGenerator.__init__` puts together for `RV64G`.
  * The names of control registers.
-/
import DifuzzRtl.Lib.Collections

namespace Difuzz.Mutator

/-- An entry of a table: `opcode: (syntax, xregs, fregs, imms, symbols)`. -/
structure Opcode where
  name : String
  form : String
  xregs : List String
  fregs : List String
  imms : List (String × Nat)
  symbols : List String
  deriving DecidableEq, Repr

def op (name form : String) (xregs : List String := []) (fregs : List String := [])
    (imms : List (String × Nat) := []) (symbols : List String := []) : Opcode :=
  ⟨name, form, xregs, fregs, imms, symbols⟩

/-! ## 1. Instructions -/

def rv32iRtype : List Opcode :=
  [op "addw" "addw xreg0, xreg1, xreg2" ["xreg0", "xreg1", "xreg2"],
   op "subw" "subw xreg0, xreg1, xreg2" ["xreg0", "xreg1", "xreg2"],
   op "sllw" "sllw xreg0, xreg1, xreg2" ["xreg0", "xreg1", "xreg2"],
   op "srlw" "srlw xreg0, xreg1, xreg2" ["xreg0", "xreg1", "xreg2"],
   op "sraw" "sraw xreg0, xreg1, xreg2" ["xreg0", "xreg1", "xreg2"]]

def rv32iItype : List Opcode :=
  [op "jalr" "jalr xreg0, 0(xreg1)" ["xreg0", "xreg1"],
   op "lb" "lb xreg0, imm6(xreg1)" ["xreg0", "xreg1"] [] [("imm6", 1)],
   op "lh" "lh xreg0, imm6(xreg1)" ["xreg0", "xreg1"] [] [("imm6", 2)],
   op "lw" "lw xreg0, imm6(xreg1)" ["xreg0", "xreg1"] [] [("imm6", 4)],
   op "lbu" "lbu xreg0, imm6(xreg1)" ["xreg0", "xreg1"] [] [("imm6", 1)],
   op "lhu" "lhu xreg0, imm6(xreg1)" ["xreg0", "xreg1"] [] [("imm6", 2)],
   op "slli" "slli xreg0, xreg1, uimm5" ["xreg0", "xreg1"] [] [("uimm5", 1)],
   op "srli" "srli xreg0, xreg1, uimm5" ["xreg0", "xreg1"] [] [("uimm5", 1)],
   op "srai" "srai xreg0, xreg1, uimm5" ["xreg0", "xreg1"] [] [("uimm5", 1)],
   op "addi" "addi xreg0, xreg1, imm12" ["xreg0", "xreg1"] [] [("imm12", 1)],
   op "slti" "slti xreg0, xreg1, imm12" ["xreg0", "xreg1"] [] [("imm12", 1)],
   op "sltiu" "sltiu xreg0, xreg1, imm12" ["xreg0", "xreg1"] [] [("imm12", 1)],
   op "xori" "xori xreg0, xreg1, imm12" ["xreg0", "xreg1"] [] [("imm12", 1)],
   op "ori" "ori xreg0, xreg1, imm12" ["xreg0", "xreg1"] [] [("imm12", 1)],
   op "andi" "andi xreg0, xreg1, imm12" ["xreg0", "xreg1"] [] [("imm12", 1)],
   op "fence" "fence",
   op "ecall" "ecall",
   op "ebreak" "ebreak"]

def rv32iStype : List Opcode :=
  [op "sb" "sb xreg0, imm6(xreg1)" ["xreg0", "xreg1"] [] [("imm6", 1)],
   op "sh" "sh xreg0, imm6(xreg1)" ["xreg0", "xreg1"] [] [("imm6", 2)],
   op "sw" "sw xreg0, imm6(xreg1)" ["xreg0", "xreg1"] [] [("imm6", 4)]]

def rv32iBtype : List Opcode :=
  [op "beq" "beq xreg0, xreg1, symbol" ["xreg0", "xreg1"] [] [] ["symbol"],
   op "bne" "bne xreg0, xreg1, symbol" ["xreg0", "xreg1"] [] [] ["symbol"],
   op "blt" "blt xreg0, xreg1, symbol" ["xreg0", "xreg1"] [] [] ["symbol"],
   op "bge" "bge xreg0, xreg1, symbol" ["xreg0", "xreg1"] [] [] ["symbol"],
   op "bltu" "bltu xreg0, xreg1, symbol" ["xreg0", "xreg1"] [] [] ["symbol"],
   op "bgeu" "bgeu xreg0, xreg1, symbol" ["xreg0", "xreg1"] [] [] ["symbol"]]

def rv32iUtype : List Opcode :=
  [op "lui" "lui xreg0, uimm20" ["xreg0"] [] [("uimm20", 1)],
   op "auipc" "auipc xreg0, uimm20" ["xreg0"] [] [("uimm20", 1)]]

def rv32iJtype : List Opcode :=
  [op "jal" "jal xreg0, symbol" ["xreg0"] [] [] ["symbol"]]

def rv64iItype : List Opcode :=
  [op "lwu" "lwu xreg0, imm6(xreg1)" ["xreg0", "xreg1"] [] [("imm6", 4)],
   op "ld" "ld xreg0, imm6(xreg1)" ["xreg0", "xreg1"] [] [("imm6", 8)],
   op "slli" "slli xreg0, xreg1, uimm6" ["xreg0", "xreg1"] [] [("uimm6", 1)],
   op "srli" "srli xreg0, xreg1, uimm6" ["xreg0", "xreg1"] [] [("uimm6", 1)],
   op "srai" "srai xreg0, xreg1, uimm6" ["xreg0", "xreg1"] [] [("uimm6", 1)],
   op "addiw" "addiw xreg0, xreg1, imm12" ["xreg0", "xreg1"] [] [("imm12", 1)],
   op "slliw" "slliw xreg0, xreg1, uimm5" ["xreg0", "xreg1"] [] [("uimm5", 1)],
   op "srliw" "srliw xreg0, xreg1, uimm5" ["xreg0", "xreg1"] [] [("uimm5", 1)],
   op "sraiw" "sraiw xreg0, xreg1, uimm5" ["xreg0", "xreg1"] [] [("uimm5", 1)]]

def rv64iStype : List Opcode :=
  [op "sd" "sd xreg0, imm6(xreg1)" ["xreg0", "xreg1"] [] [("imm6", 8)]]

def rvZifencei : List Opcode :=
  [op "fence.i" "fence.i",
   op "sfence.vma" "sfence.vma xreg0, xreg1" ["xreg0", "xreg1"]]

def rvZicsr : List Opcode :=
  [op "csrrw" "csrrw xreg0, \x7b\x7d, xreg1" ["xreg0", "xreg1"],
   op "csrrs" "csrrs xreg0, \x7b\x7d, xreg1" ["xreg0", "xreg1"],
   op "csrrc" "csrrc xreg0, \x7b\x7d, xreg1" ["xreg0", "xreg1"],
   op "csrrwi" "csrrwi xreg0, \x7b\x7d, uimm5" ["xreg0"] [] [("uimm5", 1)],
   op "csrrsi" "csrrsi xreg0, \x7b\x7d, uimm5" ["xreg0"] [] [("uimm5", 1)],
   op "csrrci" "csrrci xreg0, \x7b\x7d, uimm5" ["xreg0"] [] [("uimm5", 1)]]

def rv32aRtype : List Opcode :=
  [op "lr.w" "lr.w xreg0, (xreg1)" ["xreg0", "xreg1"],
   op "sc.w" "sc.w xreg0, xreg2, (xreg1)" ["xreg0", "xreg1", "xreg2"],
   op "amoswap.w" "amoswap.w xreg0, xreg2, (xreg1)" ["xreg0", "xreg1", "xreg2"],
   op "amoadd.w" "amoadd.w xreg0, xreg2, (xreg1)" ["xreg0", "xreg1", "xreg2"],
   op "amoxor.w" "amoxor.w xreg0, xreg2, (xreg1)" ["xreg0", "xreg1", "xreg2"],
   op "amoand.w" "amoand.w xreg0, xreg2, (xreg1)" ["xreg0", "xreg1", "xreg2"],
   op "amoor.w" "amoor.w xreg0, xreg2, (xreg1)" ["xreg0", "xreg1", "xreg2"],
   op "amomin.w" "amomin.w xreg0, xreg2, (xreg1)" ["xreg0", "xreg1", "xreg2"],
   op "amomax.w" "amomax.w xreg0, xreg2, (xreg1)" ["xreg0", "xreg1", "xreg2"],
   op "amominu.w" "amominu.w xreg0, xreg2, (xreg1)" ["xreg0", "xreg1", "xreg2"],
   op "amomaxu.w" "amomaxu.w xreg0, xreg2, (xreg1)" ["xreg0", "xreg1", "xreg2"]]

def rv64aRtype : List Opcode :=
  [op "lr.d" "lr.d xreg0, (xreg1)" ["xreg0", "xreg1"],
   op "sc.d" "sc.d xreg0, xreg1, (xreg1)" ["xreg0", "xreg1", "xreg2"],
   op "amoswap.d" "amoswap.d xreg0, xreg2, (xreg1)" ["xreg0", "xreg1", "xreg2"],
   op "amoadd.d" "amoadd.d xreg0, xreg2, (xreg1)" ["xreg0", "xreg1", "xreg2"],
   op "amoxor.d" "amoxor.d xreg0, xreg2, (xreg1)" ["xreg0", "xreg1", "xreg2"],
   op "amoand.d" "amoand.d xreg0, xreg2, (xreg1)" ["xreg0", "xreg1", "xreg2"],
   op "amoor.d" "amoor.d xreg0, xreg2, (xreg1)" ["xreg0", "xreg1", "xreg2"],
   op "amomin.d" "amomin.d xreg0, xreg2, (xreg1)" ["xreg0", "xreg1", "xreg2"],
   op "amomax.d" "amomax.d xreg0, xreg2, (xreg1)" ["xreg0", "xreg1", "xreg2"],
   op "amominu.d" "amominu.d xreg0, xreg2, (xreg1)" ["xreg0", "xreg1", "xreg2"],
   op "amomaxu.d" "amomaxu.d xreg0, xreg2, (xreg1)" ["xreg0", "xreg1", "xreg2"]]

def rv32fRtype : List Opcode :=
  [op "fadd.s" "fadd.s freg0, freg1, freg2, \x7b\x7d" [] ["freg0", "freg1", "freg2"],
   op "fsub.s" "fsub.s freg0, freg1, freg2, \x7b\x7d" [] ["freg0", "freg1", "freg2"],
   op "fmul.s" "fmul.s freg0, freg1, freg2, \x7b\x7d" [] ["freg0", "freg1", "freg2"],
   op "fdiv.s" "fdiv.s freg0, freg1, freg2, \x7b\x7d" [] ["freg0", "freg1", "freg2"],
   op "fsqrt.s" "fsqrt.s freg0, freg1, \x7b\x7d" [] ["freg0", "freg1"],
   op "fsgnj.s" "fsgnj.s freg0, freg1, freg2" ["xreg0"] ["freg0", "freg1", "freg2"],
   op "fsgnjn.s" "fsgnjn.s freg0, freg1, freg2" ["xreg0"] ["freg0", "freg1", "freg2"],
   op "fsgnjx.s" "fsgnjx.s freg0, freg1, freg2" ["xreg0"] ["freg0", "freg1", "freg2"],
   op "fmin.s" "fmin.s freg0, freg1, freg2" [] ["freg0", "freg1", "freg2"],
   op "fmax.s" "fmax.s freg0, freg1, freg2" [] ["freg0", "freg1", "freg2"],
   op "fcvt.w.s" "fcvt.w.s xreg0, freg0, \x7b\x7d" ["xreg0"] ["freg0"],
   op "fcvt.wu.s" "fcvt.wu.s xreg0, freg0, \x7b\x7d" ["xreg0"] ["freg0"],
   op "fmv.x.w" "fmv.x.w xreg0, freg0" ["xreg0"] ["freg0"],
   op "feq.s" "feq.s xreg0, freg0, freg1" ["xreg0"] ["freg0", "freg1"],
   op "flt.s" "flt.s xreg0, freg0, freg1" ["xreg0"] ["freg0", "freg1"],
   op "fle.s" "fle.s xreg0, freg0, freg1" ["xreg0"] ["freg0", "freg1"],
   op "fclass.s" "fclass.s xreg0, freg0" ["xreg0"] ["freg0"],
   op "fcvt.s.w" "fcvt.s.w freg0, xreg0, \x7b\x7d" ["xreg0"] ["freg0"],
   op "fcvt.s.wu" "fcvt.s.wu freg0, xreg0, \x7b\x7d" ["xreg0"] ["freg0"],
   op "fmv.w.x" "fmv.w.x freg0, xreg0" ["xreg0"] ["freg0"]]

def rv32fR4type : List Opcode :=
  [op "fmadd.s" "fmadd.s freg0, freg1, freg2, freg3, \x7b\x7d"
     [] ["freg0", "freg1", "freg2", "freg3"],
   op "fmsub.s" "fmsub.s freg0, freg1, freg2, freg3, \x7b\x7d"
     [] ["freg0", "freg1", "freg2", "freg3"],
   op "fnmsub.s" "fnmsub.s freg0, freg1, freg2, freg3, \x7b\x7d"
     [] ["freg0", "freg1", "freg2", "freg3"],
   op "fnmadd.s" "fnmadd.s freg0, freg1, freg2, freg3, \x7b\x7d"
     [] ["freg0", "freg1", "freg2", "freg3"]]

def rv32fItype : List Opcode :=
  [op "flw" "flw freg0, imm6(xreg1)" ["xreg1"] ["freg0"] [("imm6", 4)]]

def rv32fStype : List Opcode :=
  [op "fsw" "fsw freg0, imm6(xreg1)" ["xreg1"] ["freg0"] [("imm6", 4)]]

def rv64fRtype : List Opcode :=
  [op "fcvt.l.s" "fcvt.l.s xreg0, freg0, \x7b\x7d" ["xreg0"] ["freg0"],
   op "fcvt.lu.s" "fcvt.lu.s xreg0, freg0, \x7b\x7d" ["xreg0"] ["freg0"],
   op "fcvt.s.l" "fcvt.s.l freg0, xreg0, \x7b\x7d" ["xreg0"] ["freg0"],
   op "fcvt.s.lu" "fcvt.s.lu freg0, xreg0, \x7b\x7d" ["xreg0"] ["freg0"]]

def hvInstructions : List Opcode :=
  [op "hfence.vvma" "hfence.vvma xreg0, xreg1" ["xreg0", "xreg1"],
   op "hfence.gvma" "hfence.gvma xreg0, xreg1" ["xreg0", "xreg1"],
   op "hlv.b" "hlv.b xreg0, (xreg1)" ["xreg0", "xreg1"],
   op "hlv.bu" "hlv.bu xreg0, (xreg1)" ["xreg0", "xreg1"],
   op "hlv.h" "hlv.h xreg0, (xreg1)" ["xreg0", "xreg1"],
   op "hlv.hu" "hlv.hu xreg0, (xreg1)" ["xreg0", "xreg1"],
   op "hlv.w" "hlv.w xreg0, (xreg1)" ["xreg0", "xreg1"],
   op "hlv.d" "hlv.d xreg0, (xreg1)" ["xreg0", "xreg1"],
   op "hlvx.wu" "hlvx.wu xreg0, (xreg1)" ["xreg0", "xreg1"],
   op "hlvx.hu" "hlvx.hu xreg0, (xreg1)" ["xreg0", "xreg1"],
   op "hsv.b" "hsv.b xreg0, (xreg1)" ["xreg0", "xreg1"],
   op "hsv.h" "hsv.h xreg0, (xreg1)" ["xreg0", "xreg1"],
   op "hsv.d" "hsv.d xreg0, (xreg1)" ["xreg0", "xreg1"],
   op "hsv.w" "hsv.w xreg0, (xreg1)" ["xreg0", "xreg1"],
   op "wfi" "wfi"]

def trapRet : List Opcode :=
  [op "mret" "mret",
   op "sret" "sret",
   op "uret" "uret"]

def cboInstructions : List Opcode :=
  [op "cbo.clean" "cbo.clean (xreg1)" ["xreg1"],
   op "cbo.flush" "cbo.flush (xreg1)" ["xreg1"],
   op "cbo.inval" "cbo.inval (xreg1)" ["xreg1"],
   op "prefetch.i" "prefetch.i imm12(xreg1)" ["xreg1"] [] [("imm12", 32)],
   op "prefetch.r" "prefetch.r imm12(xreg1)" ["xreg1"] [] [("imm12", 32)],
   op "prefetch.w" "prefetch.w imm12(xreg1)" ["xreg1"] [] [("imm12", 32)],
   op "cbo.zero" "cbo.zero (xreg1)" ["xreg1"]]

def rv32i : List Opcode :=
  rv32iRtype ++ rv32iItype ++ rv32iBtype ++ rv32iStype ++ rv32iJtype ++ rv32iUtype

def rv64i : List Opcode := rv64iItype ++ rv64iStype

def rv32f : List Opcode := rv32fRtype ++ rv32fR4type ++ rv32fItype ++ rv32fStype

/-- `opcodes_map` for `RV64G`: a later table overwrites the entries of an earlier one. -/
def opcodesMap : Dict String Opcode :=
  Dict.ofList ((trapRet ++ rv32i ++ rv64i ++ rv32aRtype ++ rv64aRtype ++ rv32f ++ rv64fRtype ++
    rvZifencei ++ rvZicsr).map fun o => (o.name, o))

/-! ## 2. Control registers -/

def csrNames : List String :=
  ["fflags", "frm", "fcsr", "sstatus", "sie", "sscratch", "sepc", "scause", "stval", "sip",
   "satp", "mhartid", "mstatus", "medeleg", "mie", "mscratch", "mepc", "mcause", "mtval", "mip",
   "pmpcfg0", "pmpaddr0", "pmpaddr1", "pmpaddr2", "pmpaddr3", "pmpaddr4", "pmpaddr5", "pmpaddr6",
   "pmpaddr7"]

def csrBitmap : List String :=
  ["0xBC2"]

def csrMpt : List String :=
  ["0xBC3"]

def csrsCbo : List String :=
  ["menvcfg", "senvcfg", "henvcfg"]

def counterTimers : List String :=
  ["cycle", "time", "instret", "cycleh", "timeh", "instreth", "hpmcounter3", "hpmcounter4",
   "hpmcounter5", "hpmcounter6", "hpmcounter7", "hpmcounter8", "hpmcounter31", "hpmcounter3h",
   "hpmcounter4h", "hpmcounter31h"]

def hvCsrs : List String :=
  ["hstatus", "hedeleg", "hideleg", "hie", "hcounteren", "hgeie", "hedelegh", "htval", "hip",
   "hvip", "htinst", "hgeip", "henvcfg", "henvcfgh", "hgatp", "hcontext", "htimedelta",
   "htimedeltah", "hstateen0", "hstateen1", "hstateen2", "hstateen3", "hstateen0h", "hstateen1h",
   "hstateen2h", "hstateen3h", "vsstatus", "vsie", "vstvec", "vsscratch", "vsepc", "vscause",
   "vstval", "vsip", "vsatp"]

end Difuzz.Mutator
