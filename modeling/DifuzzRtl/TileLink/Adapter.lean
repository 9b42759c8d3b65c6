/-
  File:      DifuzzRtl/TileLink/Adapter.lean
  Subject:   The TileLink slave of the fuzzer (adapters/tilelink/adapter.py).

  The adapter is a set of coroutines over shared tables. Each coroutine does one thing at a clock
  edge, without interruption, and every such thing is a function on the state here:

  * `aPortMonitor`, `cPortMonitor`, `ePortMonitor` -- a beat that fires on channel A, C or E;
  * `dPop`, `bPop` -- a driver takes the next entry of its queue (the callback of a D entry runs);
  * `hostInterface`, `dataRetriever` -- the probe of the host, and the probes at the end.

  A callback is a value of `Callback` or `DCallback`, with the arguments it was built with.
  Mutable tables that a callback refers to are the tables of the state; a `burst_data` table is
  an index into `bursts`. The random choices are read from a stream.
-/
import DifuzzRtl.Lib.Words
import DifuzzRtl.TileLink.Utils

namespace Difuzz.TileLink

/-! ## 1. The state -/

/-- What the constructor computes. The buses are a power of two of bytes wide, and so are blocks. -/
structure Config where
  protocol : Protocol
  lgBlockSize : Nat := 6
  debug : Bool := false
  lgDatalen : Nat
  bDatalen : Nat

namespace Config

variable (cfg : Config)

def blockSize : Nat := 2 ^ cfg.lgBlockSize

/-- `a_datalen`, `c_datalen` and `d_datalen`, which the constructor compares: the bytes of a
    beat. -/
def datalen : Nat := 2 ^ cfg.lgDatalen

/-- `& addr_mask_d`: the mask is `~((1 << log) - 1)`. -/
def addrAligned (addr : Nat) : Nat := Nat.ldiff addr (2 ^ cfg.lgDatalen - 1)

/-- `& block_mask`. -/
def blockAddr (addr : Nat) : Nat := Nat.ldiff addr (cfg.blockSize - 1)

def burstLen (size : Nat) : Nat := max (2 ^ size / cfg.datalen) 1

/-- `data_mask` of the A port. -/
def dataMask : Nat := 2 ^ (8 * cfg.datalen) - 1

end Config

/-- The callback of an entry of the D queue. -/
inductive DCallback where
  | updateMem (burst : Nat)
  | updatePerm (blockAddr param : Nat)
  deriving DecidableEq, Repr

/-- The callback of a probe. -/
inductive Callback where
  | accessAck (burstLen burst size source : Nat)
  | accessAckData (burstLen addrAligned size source : Nat)
  | arithmeticAck (operand1 burstLen addrAligned bitMask offset size source : Nat)
  | logicalAck (operand1 burstLen addrAligned bitMask offset size source : Nat)
  | grant (param sink size source blockAddr : Nat)
  | grantData (burstLen addrAligned param sink size source blockAddr : Nat)
  | probeBlocksRec (probeAddrs : List Nat)
  | enableProbe
  deriving DecidableEq, Repr

/-- The arguments of `retrieveBlock_cb`. -/
structure Retrieve where
  msg : BOpcode
  callback : Callback
  param : Nat
  size : Nat
  addr : Nat
  mask : Nat
  deriving DecidableEq, Repr

/-- An entry of the D queue; a bubble has no message. -/
abbrev DEntry := Option DMessage × Option DCallback

/-- The tables and flags of a running adapter. -/
structure Adapter where
  memory : Dict Nat Nat
  blockPerm : Dict Nat Perm
  dSinks : FreeList Retrieve
  bSrcs : FreeList Retrieve
  bCallback : SrcToCallback Callback
  dQueue : List DEntry
  bQueue : List BMessage
  aOngoings : Dict Nat Nat
  cOngoings : Dict Nat Nat
  ongoingTlc : Dict Nat Nat
  bursts : List (Dict Nat (Nat × Nat))
  burstData : Option Nat
  drive : Bool
  retrieve : Bool
  retriever : Bool
  probe : Bool
  probeEn : Bool
  probeAddr : Nat
  random : Nat → Nat

/-- A beat of channel A. -/
structure ABeat where
  opcode : AOpcode
  param : Nat
  size : Nat
  source : Nat
  address : Nat
  mask : Nat
  data : Nat
  deriving DecidableEq, Repr

/-- A beat of channel C. -/
structure CBeat where
  opcode : COpcode
  param : Nat
  size : Nat
  source : Nat
  address : Nat
  data : Nat
  corrupt : Nat
  deriving DecidableEq, Repr

/-! ## 2. Masks and operands -/

/-- `"{:02x}".format(n)`. -/
def hex02 (n : Nat) : List Char :=
  if n < 16 then '0' :: Nat.toDigits 16 n else Nat.toDigits 16 n

def hexDigit (c : Char) : Nat :=
  if c.isDigit then c.toNat - '0'.toNat else c.toNat - 'a'.toNat + 10

/-- `int(text, 16)`. -/
def ofHex (text : List Char) : Nat := text.foldl (fun n c => 16 * n + hexDigit c) 0

/-- `bit_mask`: each binary digit of the mask is written as two hexadecimal digits. -/
def bitMask (mask : Nat) : Nat :=
  ofHex ((Nat.toDigits 2 mask).flatMap fun i => hex02 (0xFF * (i.toNat - '0'.toNat)))

/-- The bits of an operand of `_arithmetic_op`: 8 for each bit of the mask. -/
def sizeOp (mask : Nat) : Nat :=
  if h : mask = 0 then 0 else (if mask % 2 = 0 then 0 else 8) + sizeOp (mask / 2)
termination_by mask
decreasing_by omega

/-- The value of an operand with its sign. -/
def signedOp (size operand : Nat) : Int :=
  if operand >>> (size - 1) &&& 1 = 1 then -(((-operand : Int) % 2 ^ size)) else operand

/-- `_arithmetic_op`: `None` for an unknown param. -/
def arithmeticOp (param operand1 operand2 mask : Nat) : Option Int :=
  let size := sizeOp mask
  let signedOp1 := signedOp size operand1
  let signedOp2 := signedOp size operand2
  match param with
  | 0 => some (min signedOp1 signedOp2)
  | 1 => some (max signedOp1 signedOp2)
  | 2 => some (min (operand1 % 2 ^ 64) (operand2 % 2 ^ 64) : Nat)
  | 3 => some (max (operand1 % 2 ^ 64) (operand2 % 2 ^ 64) : Nat)
  | 4 => some (signedOp1 + signedOp2)
  | _ => none

/-- `_logical_op`: `None` for an unknown param. -/
def logicalOp (param operand1 operand2 : Nat) : Option Int :=
  match param with
  | 0 => some (operand1 ^^^ operand2 : Nat)
  | 1 => some (operand1 ||| operand2 : Nat)
  | 2 => some (operand1 &&& operand2 : Nat)
  | 3 => some operand1
  | _ => none

/-! ## 3. Starting -/

namespace Adapter

/-- `start` and `drive_input`: the blocks of the memory map are owned by the adapter. -/
def start (cfg : Config) (memory : Dict Nat Nat) (ongoingTlc : Dict Nat Nat) (probe probeEn : Bool)
    (probeAddr : Nat) (σ : SetOrder) (random : Nat → Nat) : Adapter where
  memory
  blockPerm := Dict.ofList
    ((σ.toSeq (memory.keys.map cfg.blockAddr).dedup).map fun addr => (addr, .tip))
  dSinks := .new "d_sinks" [0, 1, 2, 3]
  bSrcs := .new "b_srcs" [0]
  bCallback := .new "b_callback" [0]
  dQueue := []
  bQueue := []
  aOngoings := .empty
  cOngoings := .empty
  ongoingTlc
  bursts := []
  burstData := none
  drive := true
  retrieve := false
  retriever := true
  probe
  probeEn
  probeAddr
  random

variable (s : Adapter)

/-- `random.choice`. -/
def choice {ε : Type} (f : FreeList ε) : Except Error (Nat × FreeList ε × Adapter) := do
  let (ret, f) ← f.get (s.random 0)
  return (ret, f, { s with random := fun i => s.random (i + 1) })

/-- The permission of a block; a block that is not in the table is the adapter's. -/
def perm (addr : Nat) : Perm := s.blockPerm.getD addr .tip

/-- A block that is addressed has an entry. -/
def touch (addr : Nat) : Adapter := { s with blockPerm := s.blockPerm.set addr (s.perm addr) }

/-! ## 4. Memory and permissions -/

/-- `get_d_messages`: an address without entry gets one. -/
def getDMessages (cfg : Config) (message : DOpcode) (memory : Dict Nat Nat)
    (addrAligned param size source sink : Nat) : Nat → List DMessage × Dict Nat Nat
  | 0 => ([], memory)
  | n + 1 =>
      let (msgs, memory) := getDMessages cfg message memory addrAligned param size source sink n
      let getAddr := addrAligned + n * cfg.datalen
      let memory := if memory.contains getAddr then memory else memory.set getAddr 0
      (msgs ++ [{ opcode := message, param, size, source, sink, data := memory.getD getAddr 0 }],
       memory)

/-- `updateMem`: the loop takes each key of the table apart into two values. -/
def updateMem (burst : Nat) : Except Error Adapter :=
  if (s.bursts.getD burst .empty).entries = [] then .ok s else .error .type

def updatePerm (blockAddr param : Nat) : Adapter :=
  if param = toT then { s with blockPerm := s.blockPerm.set blockAddr .trunk } else s

/-- `callback.call()`, for an entry of the D queue. -/
def callD : DCallback → Except Error Adapter
  | .updateMem burst => s.updateMem burst
  | .updatePerm blockAddr param => .ok (s.updatePerm blockAddr param)

/-! ## 5. Probes -/

/-- `retrieveBlock_cb`. -/
def retrieveBlockCb (r : Retrieve) : Except Error Adapter := do
  let (bSrc, bSrcs, s) ← s.choice s.bSrcs
  let bCallback ← s.bCallback.set bSrc r.callback
  return { s with
    bSrcs
    bCallback
    bQueue := s.bQueue ++ [{ opcode := r.msg, param := r.param, size := r.size, source := bSrc
                             address := r.addr, mask := r.mask }] }

/-- `retrieveBlock`: without a free source the probe waits. -/
def retrieveBlock (callback : Callback) (param size addr mask : Nat) : Except Error Adapter :=
  let r : Retrieve := ⟨.probeBlock, callback, param, size, addr, mask⟩
  if s.bSrcs.empty then .ok { s with bSrcs := s.bSrcs.reserve r } else s.retrieveBlockCb r

/-- `probe_blocks_rec`. -/
def probeBlocksRec (cfg : Config) : List Nat → Except Error Adapter
  | addr :: probeAddrs =>
      s.retrieveBlock (.probeBlocksRec probeAddrs) toN cfg.lgBlockSize addr (2 ^ cfg.bDatalen - 1)
  | [] => .ok { s with drive := false }

/-! ## 6. Callbacks of probes -/

/-- `d_queue.push`, without callback. -/
def pushD (msg : DMessage) : Adapter := { s with dQueue := s.dQueue ++ [(some msg, none)] }

/-- `AccessAck_cb`. -/
def accessAckCb (burstLen burst size source : Nat) : Adapter :=
  let remainClks := burstLen - s.aOngoings.getD source burstLen
  { s with dQueue := s.dQueue ++ List.replicate remainClks (none, none) ++
      [(some { opcode := .accessAck, size, source }, some (.updateMem burst))] }

/-- `AccessAckData_cb`, and what a Get of an owned block does. -/
def accessAckDataCb (cfg : Config) (burstLen addrAligned size source : Nat) : Adapter :=
  let (msgs, memory) :=
    getDMessages cfg .accessAckData s.memory addrAligned 0 size source 0 burstLen
  { s with memory, dQueue := s.dQueue ++ msgs.map fun msg => (some msg, none) }

/-- `ArithmeticAck_cb` and `LogicalAck_cb`: the old value is looked up, then a name is used that
    is not defined. -/
def atomicAckCb (addrAligned : Nat) : Except Error Adapter :=
  if s.memory.contains addrAligned then .error (.name "param") else .error .key

/-- `Grant_cb`: the message needs a sink, which is not given. -/
def grantCb : Except Error Adapter := .error .key

/-- `GrantData_cb`, and what an AcquireBlock of an owned block does: the first beat carries the
    change of the permission. -/
def grantDataCb (cfg : Config) (burstLen addrAligned param sink size source blockAddr : Nat) :
    Adapter :=
  let (msgs, memory) :=
    getDMessages cfg .grantData s.memory addrAligned param size source sink burstLen
  let cbs := some (.updatePerm blockAddr param) :: List.replicate (msgs.length - 1) none
  { s with
    memory
    ongoingTlc := s.ongoingTlc.set sink blockAddr
    dQueue := s.dQueue ++ (msgs.map some).zip cbs }

/-- `callback.call()`, for a probe. -/
def call (cfg : Config) : Callback → Except Error Adapter
  | .accessAck burstLen burst size source => .ok (s.accessAckCb burstLen burst size source)
  | .accessAckData burstLen addrAligned size source =>
      .ok (s.accessAckDataCb cfg burstLen addrAligned size source)
  | .arithmeticAck _ _ addrAligned _ _ _ _ => s.atomicAckCb addrAligned
  | .logicalAck _ _ addrAligned _ _ _ _ => s.atomicAckCb addrAligned
  | .grant .. => grantCb
  | .grantData burstLen addrAligned param sink size source blockAddr =>
      .ok (s.grantDataCb cfg burstLen addrAligned param sink size source blockAddr)
  | .probeBlocksRec probeAddrs => s.probeBlocksRec cfg probeAddrs
  | .enableProbe => .ok { s with probeEn := true }

/-! ## 7. Channel A -/

section ChannelA

variable (cfg : Config) (b : ABeat)

/-- A Get: at once, or after the block has been retrieved. -/
def getData : Except Error Adapter :=
  let addrAligned := cfg.addrAligned b.address
  let burstLen := cfg.burstLen b.size
  if s.perm (cfg.blockAddr b.address) ≠ .tip then
    s.retrieveBlock (.accessAckData burstLen addrAligned b.size b.source) toT b.size b.address b.mask
  else .ok (s.accessAckDataCb cfg burstLen addrAligned b.size b.source)

/-- The first beat of a Put to a block that has to be retrieved: a new table, which the callback
    refers to. -/
def newBurst (count : Nat) : Except Error Adapter :=
  if count = 0 then
    let s' : Adapter :=
      { s with bursts := s.bursts ++ [.empty], burstData := some s.bursts.length }
    s'.retrieveBlock (.accessAck (cfg.burstLen b.size) s.bursts.length b.size b.source) toN b.size
      b.address b.mask
  else .ok s

/-- A beat of a Put to a block that has to be retrieved goes to the table. -/
def collect (getAddr : Nat) : Except Error Adapter :=
  match s.burstData with
  | some i => .ok { s with bursts := s.bursts.modify i (·.set getAddr (bitMask b.mask, b.data)) }
  | none => .error (.unboundLocal "burst_data")

/-- A beat of a PutFullData or PutPartialData. -/
def putData : Except Error Adapter :=
  let burstLen := cfg.burstLen b.size
  let count := s.aOngoings.getD b.source 0
  let getAddr := cfg.addrAligned b.address + count * cfg.datalen
  if s.perm (cfg.blockAddr b.address) ≠ .tip then do
    let s ← s.newBurst cfg b count
    s.collect b getAddr
  else
    let getData := merge (s.memory.getD getAddr 0) b.data (bitMask b.mask)
    let s := { s with memory := s.memory.set getAddr getData }
    if count + 1 = burstLen then
      let s := s.pushD { opcode := .accessAck, size := b.size, source := b.source }
      .ok { s with aOngoings := if count = 0 then s.aOngoings else s.aOngoings.erase b.source }
    else .ok { s with aOngoings := s.aOngoings.set b.source (count + 1) }

/-- The bits below the operand; `math.log` of 0 raises. -/
def maskOffset (mask : Nat) : Except Error Nat :=
  if mask = 0 then .error .value else .ok (Nat.log2 (lowBit mask) * 8)

/-- An atomic operation on an owned block: the operand is replaced, the old one is answered. -/
def atomicOp (getAddr offset : Nat) (op : Nat → Option Int) : Except Error Adapter :=
  let memory := if s.memory.contains getAddr then s.memory else s.memory.set getAddr 0
  let operand2 := (memory.getD getAddr 0 &&& bitMask b.mask) >>> offset
  match op operand2 with
  | none => .error .type
  | some result =>
      let result := ((result * 2 ^ offset) % (cfg.dataMask + 1 : Nat)).toNat
      let memory := memory.set getAddr (merge (memory.getD getAddr 0) result (bitMask b.mask))
      .ok ({ s with memory }.pushD
        { opcode := .accessAckData, size := b.size, source := b.source, data := operand2 })

/-- An ArithmeticData or LogicalData beat: `op` is the operation, `callback` what runs after the
    block has been retrieved. -/
def atomicData (title : String) (op : Nat → Nat → Option Int)
    (callback : Nat → Nat → Nat → Nat → Nat → Nat → Nat → Callback) : Except Error Adapter := do
  let burstLen := cfg.burstLen b.size
  let count := s.aOngoings.getD b.source 0
  check (burstLen = 1) (title ++ " can not span over multiple block")
  let offset ← maskOffset b.mask
  let addrAligned := cfg.addrAligned b.address
  let getAddr := addrAligned + count * cfg.datalen
  let operand1 := (b.data &&& bitMask b.mask) >>> offset
  if s.perm (cfg.blockAddr b.address) ≠ .tip then
    s.retrieveBlock (callback operand1 burstLen addrAligned (bitMask b.mask) offset b.size b.source)
      toN b.size b.address b.mask
  else s.atomicOp cfg b getAddr offset (op operand1)

def arithmeticData : Except Error Adapter :=
  s.atomicData cfg b "ARITHMETIC_DATA" (fun x y => arithmeticOp b.param x y b.mask) .arithmeticAck

def logicalData : Except Error Adapter :=
  s.atomicData cfg b "LOGICAL_DATA" (logicalOp b.param) .logicalAck

/-- The permission that an Acquire asks for. -/
def grantParam : Nat := if b.param = NtoB then toB else toT

/-- What the other holders are asked to keep. -/
def probeParam : Nat := if b.param = NtoB then toB else toN

def acquireBlock : Except Error Adapter := do
  let (dSink, dSinks, s) ← s.choice s.dSinks
  let s := { s with dSinks }
  let burstLen := cfg.burstLen b.size
  let addrAligned := cfg.addrAligned b.address
  let blockAddr := cfg.blockAddr b.address
  if s.perm blockAddr ≠ .tip then
    s.retrieveBlock
      (.grantData burstLen addrAligned (grantParam b) dSink b.size b.source blockAddr)
      (probeParam b) b.size b.address b.mask
  else
    return s.grantDataCb cfg burstLen addrAligned (grantParam b) dSink b.size b.source blockAddr

/-- AcquirePerm: there is no method `retrievePerm`. -/
def acquirePerm : Except Error Adapter := do
  let (dSink, dSinks, s) ← s.choice s.dSinks
  let s := { s with dSinks }
  let blockAddr := cfg.blockAddr b.address
  if s.perm blockAddr ≠ .tip then throw (.attribute "retrievePerm")
  else
    let msg : DMessage :=
      { opcode := .grant, param := grantParam b, size := b.size, source := b.source, sink := dSink }
    return { s with
      ongoingTlc := s.ongoingTlc.set dSink blockAddr
      dQueue := s.dQueue ++ [(some msg, some (.updatePerm blockAddr (grantParam b)))] }

/-- The branch of the opcode. -/
def aOpcode : Except Error Adapter :=
  match b.opcode with
  | .get => s.getData cfg b
  | .putFullData | .putPartialData => s.putData cfg b
  | .arithmeticData => if cfg.protocol.hasUh then s.arithmeticData cfg b else .ok s
  | .logicalData => if cfg.protocol.hasUh then s.logicalData cfg b else .ok s
  | .intent =>
      if cfg.protocol.hasUh then
        .ok (s.pushD { opcode := .hintAck, size := b.size, source := b.source })
      else .ok s
  | .acquireBlock => if cfg.protocol = .tlC then s.acquireBlock cfg b else .ok s
  | .acquirePerm => if cfg.protocol = .tlC then s.acquirePerm cfg b else .ok s

/-- **A beat that fires on channel A.** -/
def aPortMonitor : Except Error Adapter := do
  aAssertions b.opcode b.param b.size b.address b.mask cfg.debug
  check (s.aOngoings.entries = [] ∨ b.source ∈ s.aOngoings.keys)
    "Messages in A channel can not be interleaved"
  (s.touch (cfg.blockAddr b.address)).aOpcode cfg b

end ChannelA

/-! ## 8. Channels C and E -/

section ChannelC

variable (cfg : Config) (b : CBeat)

/-- The client gave up a block that it could write. -/
def returnBlock : Adapter :=
  if b.param = TtoB ∨ b.param = TtoN then
    { s with blockPerm := s.blockPerm.set (cfg.blockAddr b.address) .tip }
  else s

/-- `b_callback.call`. -/
def bCallbackCall (src : Nat) : Except Error Adapter :=
  match s.bCallback.call src with
  | .ok (some callback, bCallback) => { s with bCallback }.call cfg callback
  | .ok (none, bCallback) => .ok { s with bCallback }
  | .error e => .error e

/-- `b_srcs.release`, which may send a waiting probe. -/
def bSrcsRelease (src : Nat) : Except Error Adapter :=
  match s.bSrcs.release src with
  | .ok (bSrcs, some r) => { s with bSrcs }.retrieveBlockCb r
  | .ok (bSrcs, none) => .ok { s with bSrcs }
  | .error e => .error e

/-- What follows the answer to a probe. -/
def answerProbe : Except Error Adapter := do
  let s ← s.bCallbackCall cfg b.source
  s.bSrcsRelease b.source

/-- A beat that carries data: the word is written, and `last` is done with the last one. -/
def dataBeat (last : Adapter → Except Error Adapter) : Except Error Adapter := do
  let count := s.cOngoings.getD b.source 0
  let getAddr := cfg.addrAligned b.address + count * cfg.datalen
  let s := { s with memory := s.memory.set getAddr b.data }
  if count + 1 = cfg.burstLen b.size then
    let s ← last (s.returnBlock cfg b)
    return { s with cOngoings := if count = 0 then s.cOngoings else s.cOngoings.erase b.source }
  else return { s with cOngoings := s.cOngoings.set b.source (count + 1) }

/-- The acknowledgement of a Release. -/
def releaseAck : Adapter := s.pushD { opcode := .releaseAck, size := b.size, source := b.source }

/-- The branch of the opcode. -/
def cOpcode : Except Error Adapter :=
  match b.opcode with
  | .accessAck | .accessAckData | .hintAck => .error .notImplemented
  | .reserved => .ok s
  | .probeAck => (s.returnBlock cfg b).answerProbe cfg b
  | .probeAckData => s.dataBeat cfg b fun s => s.answerProbe cfg b
  | .release => .ok ((s.returnBlock cfg b).releaseAck b)
  | .releaseData => s.dataBeat cfg b fun s => .ok (s.releaseAck b)

/-- **A beat that fires on channel C.** -/
def cPortMonitor : Except Error Adapter := do
  cAssertions b.opcode b.param b.size b.address b.corrupt cfg.debug
  check (s.cOngoings.entries = [] ∨ b.source ∈ s.cOngoings.keys)
    "Messages in C channel can not be interleaved"
  s.cOpcode cfg b

end ChannelC

/-- **A GrantAck on channel E.** -/
def ePortMonitor (sink : Nat) : Except Error Adapter := do
  -- nothing ever waits for a sink
  let (dSinks, _) ← s.dSinks.release sink
  if s.ongoingTlc.contains sink then
    return { s with dSinks, ongoingTlc := s.ongoingTlc.erase sink }
  else throw .key

/-! ## 9. The drivers and the host -/

/-- **The D driver takes an entry**: the callback runs before the message is driven. -/
def dPop : Except Error (Option DMessage × Adapter) :=
  match s.dQueue with
  | [] => .ok (none, s)
  | (none, _) :: q => .ok (none, { s with dQueue := q })
  | (some msg, none) :: q => .ok (some msg, { s with dQueue := q })
  | (some msg, some cb) :: q => do
      let s ← { s with dQueue := q }.callD cb
      return (some msg, s)

/-- **The B driver takes a probe.** -/
def bPop : Option BMessage × Adapter :=
  match s.bQueue with
  | [] => (none, s)
  | msg :: q => (some msg, { s with bQueue := q })

/-- `probe_block`. -/
def probeBlock (addr : Nat) : Adapter := { s with probe := true, probeAddr := addr }

/-- **One turn of `host_interface`.** -/
def hostInterface (cfg : Config) : Except Error Adapter :=
  if s.probe ∧ s.probeEn ∧ s.probeAddr ∉ s.ongoingTlc.values then
    let blockAddr := cfg.blockAddr s.probeAddr
    if s.blockPerm.contains blockAddr ∧ s.perm blockAddr ≠ .tip then do
      let s ← s.retrieveBlock .enableProbe toN cfg.lgBlockSize s.probeAddr (2 ^ cfg.bDatalen - 1)
      return { s with probe := false, probeEn := false, probeAddr := 0 }
    else .ok s
  else .ok s

/-- `stop`. -/
def stop : Adapter := { s with retrieve := true }

/-- **`data_retriever`**: once stopped, all blocks that are not the adapter's are probed, one after
    the other. The flag `retriever` says that this has not happened yet. -/
def dataRetriever (cfg : Config) : Except Error Adapter :=
  if s.retrieve ∧ s.retriever then
    { s with retriever := false }.probeBlocksRec cfg
      (s.blockPerm.keys.filter fun addr => s.perm addr ≠ Perm.tip)
  else .ok s

/-! ## 10. What the shared parts do -/

/-- **The messages of a burst** carry the words of the memory; the memory reads as before. -/
theorem getDMessages_spec (cfg : Config) (message : DOpcode) (memory : Dict Nat Nat)
    (addrAligned param size source sink n : Nat) :
    (getDMessages cfg message memory addrAligned param size source sink n).1 =
      ((List.range n).map fun i => { opcode := message, param, size, source, sink
                                     data := memory.getD (addrAligned + i * cfg.datalen) 0 }) ∧
    ∀ x, (getDMessages cfg message memory addrAligned param size source sink n).2.getD x 0 =
      memory.getD x 0 := by
  induction n with
  | zero => exact ⟨rfl, fun _ => rfl⟩
  | succ n ih =>
      -- an entry that is made reads 0, which is what the missing entry reads
      have hnew : ∀ (d : Dict Nat Nat) (a x : Nat),
          (if d.contains a then d else d.set a 0).getD x 0 = d.getD x 0 := by
        intro d a x
        split
        · rfl
        · rename_i h
          rw [Dict.getD_set]
          split
          · rename_i hx
            have hnone : d.get? a = none := by
              unfold Dict.contains at h
              simpa using h
            subst hx
            unfold Dict.getD
            rw [hnone]
            rfl
          · rfl
      refine ⟨?_, fun x => ?_⟩
      · rw [List.range_succ, List.map_append, ← ih.1]
        simp only [getDMessages, hnew, ih.2, List.map_cons, List.map_nil]
      · simp only [getDMessages, hnew, ih.2]

/-- The answer to a Get pushes the words of its beats. -/
theorem accessAckDataCb_spec (cfg : Config) (burstLen addrAligned size source : Nat) :
    (s.accessAckDataCb cfg burstLen addrAligned size source).dQueue = s.dQueue ++
      ((List.range burstLen).map fun i =>
        ({ opcode := .accessAckData, size, source
           data := s.memory.getD (addrAligned + i * cfg.datalen) 0 } : DMessage)).map
        (fun msg => (some msg, none)) ∧
    ∀ x, (s.accessAckDataCb cfg burstLen addrAligned size source).memory.getD x 0 =
      s.memory.getD x 0 := by
  obtain ⟨hmsgs, hmem⟩ := getDMessages_spec cfg .accessAckData s.memory addrAligned 0 size source 0
    burstLen
  refine ⟨?_, hmem⟩
  rw [← hmsgs]
  rfl

@[simp] theorem perm_touch (a x : Nat) : (s.touch a).perm x = s.perm x := by
  show (s.blockPerm.set a (s.perm a)).getD x .tip = s.blockPerm.getD x .tip
  rw [Dict.getD_set]
  split
  · rename_i h
    rw [h]
    rfl
  · rfl

end Adapter

/-! ## 11. The table of a burst -/

/-- The table of a burst after `count` beats. -/
def counts (source count : Nat) : Dict Nat Nat := if count = 0 then .empty else ⟨[(source, count)]⟩

theorem counts_getD (source count : Nat) : (counts source count).getD source 0 = count := by
  unfold counts
  split
  · rename_i h
    rw [h]
    rfl
  · simp [Dict.getD, Dict.get?]

theorem counts_set (source count : Nat) :
    (counts source count).set source (count + 1) = counts source (count + 1) := by
  unfold counts
  split <;> simp [Dict.set, Dict.setEntries, Dict.empty]

theorem counts_erase (source count : Nat) : (counts source count).erase source = .empty := by
  unfold counts
  split <;> simp [Dict.erase, Dict.empty]

/-- Beats of the burst may come. -/
theorem counts_free (source count : Nat) :
    (counts source count).entries = [] ∨ source ∈ (counts source count).keys := by
  unfold counts
  split
  · exact .inl rfl
  · exact .inr (List.mem_singleton_self source)

end Difuzz.TileLink
