/-
  File:      DifuzzRtl/TileLink/System.lean
  Subject:   The adapter together with a caching client.

  The client is the design under test: it sends beats on channels A, C and E and takes messages
  from channels D and B. Nothing is fixed about when it does so; what is fixed is what a TL-C
  client may send.

  * `Client` -- what the client holds of each block, its outstanding Acquires, the probes it has to
    answer, and the burst it is sending on channel C.
  * `Client.MayAcquire`, `Client.MayRespond` -- the protocol: one transaction at a time on a block,
    one answer to a probe, params that report the state the client is in.
  * `System`, `Step`, `Reachable` -- the adapter, the client and the messages on the wires of
    channels D and B; every step is a step of one coroutine of the adapter, or the client taking
    what is driven. A step that raises an exception does not exist: it ends the simulation.
-/
import Mathlib.Logic.Function.Basic
import DifuzzRtl.TileLink.Adapter

namespace Difuzz.TileLink

/-! ## 1. The client -/

/-- What the client holds of a block: nothing, a copy to read, a copy to write. -/
inductive Held where
  | N | B | T
  deriving DecidableEq, Repr

/-- From and to which state a param of channel C reports. -/
def report : Nat → Option (Held × Held)
  | 0 => some (.T, .B)
  | 1 => some (.T, .N)
  | 2 => some (.B, .N)
  | 3 => some (.T, .T)
  | 4 => some (.B, .B)
  | 5 => some (.N, .N)
  | _ => none

/-- The state from which a param of an Acquire grows. -/
def grow : Nat → Option Held
  | 0 | 1 => some .N
  | 2 => some .B
  | _ => none

/-- An outstanding Acquire: its block, the permission it asks for, and the beats of the answer that
    are still to come. -/
structure Acquire where
  block : Nat
  cap : Nat
  beats : Nat
  deriving DecidableEq, Repr

/-- The client. -/
structure Client where
  held : Nat → Held
  acquires : Nat → Option Acquire
  probes : List BMessage
  burst : Option (CBeat × Nat)

namespace Client

variable (cfg : Config) (k : Client)

/-- At reset the client has nothing. -/
def init : Client := ⟨fun _ => .N, fun _ => none, [], none⟩

/-- The client may send this Acquire: the param is right, the source is free, and there is no
    transaction on the block. -/
structure MayAcquire (b : ABeat) : Prop where
  opcode : b.opcode = .acquireBlock ∨ b.opcode = .acquirePerm
  param : grow b.param = some (k.held (cfg.blockAddr b.address))
  source : k.acquires b.source = none
  outstanding : ∀ src a, k.acquires src = some a → a.block ≠ cfg.blockAddr b.address
  burst : ∀ b₀ n, k.burst = some (b₀, n) → cfg.blockAddr b₀.address ≠ cfg.blockAddr b.address

def acquire (b : ABeat) : Client :=
  let beats := if b.opcode = .acquireBlock then cfg.burstLen b.size else 1
  let a : Acquire := ⟨cfg.blockAddr b.address, if b.param = NtoB then toB else toT, beats⟩
  { k with acquires := Function.update k.acquires b.source (some a) }

/-- The message carries data, so it may have several beats. -/
def hasData : COpcode → Bool
  | .probeAckData | .releaseData => true
  | _ => false

/-- The probe that the message answers. -/
def Answers (b : CBeat) (p : BMessage) : Prop :=
  p.source = b.source ∧ cfg.blockAddr p.address = cfg.blockAddr b.address

instance (b : CBeat) (p : BMessage) : Decidable (Answers cfg b p) := by
  unfold Answers
  infer_instance

/-- The client may send this beat on channel C: the next one of its burst, or the first one of an
    answer to a probe or of a release. -/
def MayRespond (b : CBeat) : Prop :=
  match k.burst with
  | some (b₀, _) => b.opcode = b₀.opcode ∧ b.param = b₀.param ∧ b.size = b₀.size ∧
      b.source = b₀.source ∧ b.address = b₀.address
  | none =>
      (∃ next, report b.param = some (k.held (cfg.blockAddr b.address), next)) ∧
      ((b.opcode = .release ∨ b.opcode = .releaseData) ∨
       ((b.opcode = .probeAck ∨ b.opcode = .probeAckData) ∧ ∃ p ∈ k.probes, Answers cfg b p))

/-- With the first beat the client is in the state that it reports. -/
def respond (b : CBeat) : Client :=
  match k.burst with
  | some (b₀, n) =>
      { k with burst := if n + 1 = cfg.burstLen b.size then none else some (b₀, n + 1) }
  | none =>
      let block := cfg.blockAddr b.address
      { k with
        held := Function.update k.held block ((report b.param).elim (k.held block) (·.2))
        probes := if b.opcode = .probeAck ∨ b.opcode = .probeAckData then
          k.probes.eraseP fun p => Answers cfg b p else k.probes
        burst := if hasData b.opcode ∧ cfg.burstLen b.size ≠ 1 then some (b, 1) else none }

end Client

/-- The message grants a block. -/
def DMessage.isGrant (msg : DMessage) : Bool := msg.opcode = .grant || msg.opcode = .grantData

/-- The client takes a message of channel D. With the last beat of the answer to an Acquire it
    holds the block. -/
def Client.receive (k : Client) (msg : DMessage) : Client :=
  if msg.isGrant then
    match k.acquires msg.source with
    | some a =>
        if a.beats = 1 then
          { k with
            acquires := Function.update k.acquires msg.source none
            held := Function.update k.held a.block (if msg.param = toT then .T else .B) }
        else
          { k with
            acquires := Function.update k.acquires msg.source (some { a with beats := a.beats - 1 }) }
    | none => k
  else k

/-! ## 2. The system -/

/-- The adapter, the client, and what is driven on channels D and B and not yet taken. -/
structure System where
  adapter : Adapter
  client : Client
  dWire : Option DMessage
  bWire : Option BMessage

/-- **One step.** -/
inductive Step (cfg : Config) : System → System → Prop where
  | uncached (st : System) (b : ABeat) (s' : Adapter) (hd : st.adapter.drive = true)
      (hb : b.opcode ≠ .acquireBlock ∧ b.opcode ≠ .acquirePerm)
      (hs : st.adapter.aPortMonitor cfg b = .ok s') : Step cfg st { st with adapter := s' }
  | acquire (st : System) (b : ABeat) (s' : Adapter) (hd : st.adapter.drive = true)
      (hb : st.client.MayAcquire cfg b) (hs : st.adapter.aPortMonitor cfg b = .ok s') :
      Step cfg st { st with adapter := s', client := st.client.acquire cfg b }
  | respond (st : System) (b : CBeat) (s' : Adapter) (hd : st.adapter.drive = true)
      (hb : st.client.MayRespond cfg b) (hs : st.adapter.cPortMonitor cfg b = .ok s') :
      Step cfg st { st with adapter := s', client := st.client.respond cfg b }
  | grantAck (st : System) (sink : Nat) (s' : Adapter) (hd : st.adapter.drive = true)
      (hs : st.adapter.ePortMonitor sink = .ok s') : Step cfg st { st with adapter := s' }
  | dPop (st : System) (msg : Option DMessage) (s' : Adapter) (hd : st.adapter.drive = true)
      (hw : st.dWire = none) (hs : st.adapter.dPop = .ok (msg, s')) :
      Step cfg st { st with adapter := s', dWire := msg }
  | dFire (st : System) (msg : DMessage) (hw : st.dWire = some msg) :
      Step cfg st { st with client := st.client.receive msg, dWire := none }
  | bPop (st : System) (hd : st.adapter.drive = true) (hw : st.bWire = none) :
      Step cfg st { st with adapter := st.adapter.bPop.2, bWire := st.adapter.bPop.1 }
  | bFire (st : System) (msg : BMessage) (hw : st.bWire = some msg) :
      Step cfg st { st with
        client := { st.client with probes := st.client.probes ++ [msg] }, bWire := none }
  | probeBlock (st : System) (addr : Nat) :
      Step cfg st { st with adapter := st.adapter.probeBlock addr }
  | hostInterface (st : System) (s' : Adapter) (hd : st.adapter.drive = true)
      (hs : st.adapter.hostInterface cfg = .ok s') : Step cfg st { st with adapter := s' }
  | stop (st : System) : Step cfg st { st with adapter := st.adapter.stop }
  | dataRetriever (st : System) (s' : Adapter) (hs : st.adapter.dataRetriever cfg = .ok s') :
      Step cfg st { st with adapter := s' }

/-- The start: any memory map, any leftover of an earlier run, any random choices. -/
def Started (cfg : Config) (st : System) : Prop :=
  ∃ memory ongoingTlc probe probeEn probeAddr σ random,
    st = ⟨.start cfg memory ongoingTlc probe probeEn probeAddr σ random, .init, none, none⟩

/-- The states that some order of steps leads to. -/
inductive Reachable (cfg : Config) : System → Prop where
  | start (st : System) (h : Started cfg st) : Reachable cfg st
  | step (st st' : System) (h : Reachable cfg st) (hs : Step cfg st st') : Reachable cfg st'

/-- **Induction over runs**: what holds at the start and is kept by every step. -/
theorem Reachable.inv {cfg : Config} {I : System → Prop} (h₀ : ∀ st, Started cfg st → I st)
    (hstep : ∀ st st', I st → Step cfg st st' → I st') {st : System} (h : Reachable cfg st) :
    I st := by
  induction h with
  | start st h => exact h₀ st h
  | step st st' _ hs ih => exact hstep st st' ih hs

end Difuzz.TileLink
