/-
  File:      DifuzzRtl/TileLink/Actions.lean
  Subject:   The adapter on its own, against any environment.

  * `Action` -- one turn of a coroutine, with the beat it takes from the ports, or a call from the
    host; `Adapter.act` -- what it does.
  * `machine` -- the adapter as a system of such steps, whatever is sent to it. The monitors, the
    drivers and the host interface run while `drive` is set.
-/
import DifuzzRtl.Lib.Runs
import DifuzzRtl.TileLink.Adapter

namespace Difuzz.TileLink

/-- One turn of a coroutine of the adapter, or a call from outside. -/
inductive Action where
  | a (b : ABeat)
  | c (b : CBeat)
  | e (sink : Nat)
  | dPop
  | bPop
  | probeBlock (addr : Nat)
  | hostInterface
  | stop
  | dataRetriever
  deriving DecidableEq, Repr

/-- The coroutine ends when `drive` is cleared. -/
def Action.driven : Action → Bool
  | .probeBlock _ | .stop | .dataRetriever => false
  | _ => true

namespace Adapter

def act (cfg : Config) (s : Adapter) : Action → Except Error Adapter
  | .a b => s.aPortMonitor cfg b
  | .c b => s.cPortMonitor cfg b
  | .e sink => s.ePortMonitor sink
  | .dPop => do
      let (_, s) ← s.dPop
      return s
  | .bPop => .ok s.bPop.2
  | .probeBlock addr => .ok (s.probeBlock addr)
  | .hostInterface => s.hostInterface cfg
  | .stop => .ok s.stop
  | .dataRetriever => s.dataRetriever cfg

/-- The state after `start`. -/
def Starts (cfg : Config) (s : Adapter) : Prop :=
  ∃ memory ongoingTlc probe probeEn probeAddr σ random,
    s = .start cfg memory ongoingTlc probe probeEn probeAddr σ random

end Adapter

/-- **The adapter as a system of steps.** -/
def machine (cfg : Config) : Machine Adapter Action where
  init := Adapter.Starts cfg
  step s a s' := (a.driven = true → s.drive = true) ∧ s.act cfg a = .ok s'

/-- A step, computed. -/
def turn? (cfg : Config) (s : Adapter) (a : Action) : Option Adapter :=
  if a.driven = true → s.drive = true then (s.act cfg a).toOption else none

theorem step_of_turn? {cfg : Config} {s s' : Adapter} {a : Action} (h : turn? cfg s a = some s') :
    (machine cfg).step s a s' := by
  unfold turn? at h
  split at h
  · rename_i hd
    refine ⟨hd, ?_⟩
    cases hs : s.act cfg a with
    | error e =>
        rw [hs] at h
        cases h
    | ok s₁ =>
        rw [hs] at h
        cases h
        rfl
  · cases h

end Difuzz.TileLink
