/-
  File:      DifuzzRtl/TileLink/Races.lean
  Subject:   Probes against grants that are not acknowledged.

  A probe must not be sent for a block while a grant of it is out: queued or driven, and not
  acknowledged on channel E. The table `ongoingTlc` knows these blocks; of the four places that send
  probes only the host interface reads it, and it looks for the address as it is given.

  * `NoRace` -- a step pushes no such probe.
  * `Clear` -- the condition on the state before and the step: the block that is to be probed
    (`probes`) is not granted (`granted`).
  * `noRace_iff_clear` -- in every run, the steps are free of races exactly when they are clear.
-/
import DifuzzRtl.TileLink.Turns

namespace Difuzz.TileLink

/-- **The step pushes no probe for a block whose grant is not acknowledged.** -/
def NoRace (cfg : Config) (x : Adapter × Action × Adapter) : Prop :=
  ∀ p ∈ x.2.2.bQueue.drop x.1.bQueue.length, cfg.blockAddr p.address ∉ x.2.2.ongoingTlc.values

/-- The table of grants after a callback. -/
def Callback.grants (ongoingTlc : Dict Nat Nat) : Callback → Dict Nat Nat
  | .grantData _ _ _ sink _ _ blockAddr => ongoingTlc.set sink blockAddr
  | _ => ongoingTlc

namespace Adapter

variable (cfg : Config) (s : Adapter)

/-- The request that is next in line when the answer of a source comes. -/
def nextAddr (src : Nat) : Option Nat :=
  match s.bSrcs.eventQueue with
  | r :: _ => some r.addr
  | [] => (s.pending src).bind Callback.nextAddr

/-- The address for which a step sends a probe. -/
def probes : Action → Option Nat
  | .c b => if s.finishes cfg b then s.nextAddr b.source else none
  | a => if s.bSrcs.empty then none else s.asked cfg a

/-- The grants that are out when the probe is sent: the answer to a probe may make one first. -/
def granted : Action → Dict Nat Nat
  | .c b => (s.pending b.source).elim s.ongoingTlc (Callback.grants s.ongoingTlc)
  | _ => s.ongoingTlc

/-- **The step sends no probe, or one for a block that is not granted.** -/
def Clear (a : Action) : Prop :=
  ∀ addr ∈ s.probes cfg a, cfg.blockAddr addr ∉ (s.granted a).values

instance (a : Action) : Decidable (s.Clear cfg a) := by
  unfold Clear
  infer_instance

end Adapter

section Step

variable {cfg : Config} {s s' : Adapter} {a : Action}

/-- What is pushed on the B queue: a probe for the address, or nothing. -/
structure Probed (s s' : Adapter) (addr : Option Nat) : Prop where
  new : ∃ new, s'.bQueue = s.bQueue ++ new ∧ new.map (·.address) = addr.toList

theorem Probed.drop {addr : Option Nat} (h : Probed s s' addr) :
    (s'.bQueue.drop s.bQueue.length).map (·.address) = addr.toList := by
  obtain ⟨new, hq, hnew⟩ := h.new
  rw [hq, List.drop_left, hnew]

namespace Adapter

/-- A request is sent at once when a source is free. -/
theorem requests_probed {ids : List Nat} {addr : Nat} (h : ServerOk ids s none)
    (hr : Requests s s' addr) : Probed s s' (if s.bSrcs.empty then none else some addr) := by
  obtain ⟨s₀, s₁, c, param, size, mask, h₀, hs, h₁, _⟩ := hr.steps
  obtain ⟨s₂, hs₂, hreq, _⟩ :=
    retrieveBlock_requested (serverOk_congr h h₀.bSrcs h₀.bCallback) c param size addr mask
  rw [hs] at hs₂
  cases hs₂
  have hempty : s.bSrcs.empty = s₀.bSrcs.empty := by rw [h₀.bSrcs]
  refine ⟨?_⟩
  cases hreq with
  | sent src hsent _ =>
      have hne : ¬ s.bSrcs.empty = true := by
        rw [hempty]
        unfold FreeList.empty
        rw [List.isEmpty_iff]
        exact List.ne_nil_of_mem hsent.free
      rw [if_neg hne, h₁.bQueue, hsent.bQueue, h₀.bQueue]
      exact ⟨_, rfl, rfl⟩
  | waits hfree hs =>
      have he : s.bSrcs.empty = true := by
        rw [hempty]
        unfold FreeList.empty
        rw [hfree]
        rfl
      subst hs
      rw [if_pos he, h₁.bQueue]
      exact ⟨[], by rw [List.append_nil]; exact h₀.bQueue, rfl⟩

theorem call_ongoingTlc {c : Callback} (h : s.call cfg c = .ok s') :
    s'.ongoingTlc = c.grants s.ongoingTlc := by
  cases c with
  | probeBlocksRec addrs =>
      cases addrs with
      | nil =>
          cases h
          rfl
      | cons addr addrs => exact retrieveBlock_ongoingTlc h
  | arithmeticAck | logicalAck =>
      simp only [call, atomicAckCb] at h
      split at h <;> cases h
  | _ =>
      cases h
      try rfl

theorem bSrcsRelease_ongoingTlc {src : Nat} (h : s.bSrcsRelease src = .ok s') :
    s'.ongoingTlc = s.ongoingTlc := by
  unfold bSrcsRelease at h
  split at h
  · have ho := retrieveBlockCb_ongoingTlc h
    exact ho
  · cases h
    rfl
  · cases h

/-- The grants after the answer to a probe. -/
theorem answerProbe_ongoingTlc {b : CBeat} {c : Callback}
    (hc : s.bCallback.cMap.get? b.source = some (some c)) (h : s.answerProbe cfg b = .ok s') :
    s'.ongoingTlc = c.grants s.ongoingTlc := by
  unfold answerProbe at h
  rw [bind_ok] at h
  obtain ⟨s₁, h₁, h⟩ := h
  rw [bCallbackCall_eq hc] at h₁
  rw [bSrcsRelease_ongoingTlc h, call_ongoingTlc h₁]
  rfl

/-- With one source, the answer to a probe sends the probe of the request that is next in line. -/
theorem answered_probed {i : Nat} {b : CBeat} {c : Callback} (h : ServerOk [i] s none)
    (hc : s.bCallback.cMap.get? b.source = some (some c)) (hs : s.answerProbe cfg b = .ok s') :
    Probed s s' (s.nextAddr b.source) := by
  obtain ⟨⟨s₁, hcalled, hok₁, hnone₁, hrel⟩, _⟩ := (answerProbe_answered h hc).2 s' hs
  have hp : s.pending b.source = some c := by
    unfold pending Dict.getD
    rw [hc]
    rfl
  have hi : b.source = i := List.mem_singleton.mp (h.tables.mem_ids hc)
  -- the one source is in use
  have hfree : s.bSrcs.freeList = [] := by
    refine List.eq_nil_iff_forall_not_mem.mpr fun x hx => ?_
    have hx' := ((h.free x).mp hx).1
    have hxi : x = i := List.mem_singleton.mp (h.tables.mem_ids hx')
    rw [hxi, ← hi, hc] at hx'
    cases hx'
  have hqueue : s₁.bQueue = s.bQueue ∧
      s₁.bSrcs.eventQueue.map (·.addr) = s.bSrcs.eventQueue.map (·.addr) ++ c.nextAddr.toList := by
    cases hcalled with
    | quiet hreq hsrcs hcall hq =>
        have hno : c.nextAddr = none := by
          unfold Callback.requests at hreq
          unfold Callback.nextAddr
          split at hreq
          · cases hreq
          · rfl
        rw [hsrcs, hno]
        exact ⟨hq, (List.append_nil _).symm⟩
    | request r _ haddr hreq =>
        cases hreq with
        | sent src hsent _ =>
            have hm : src ∈ s.bSrcs.freeList := hsent.free
            rw [hfree] at hm
            cases hm
        | waits _ hs =>
            subst hs
            rw [haddr]
            exact ⟨rfl, List.map_append⟩
  have hnext : s.nextAddr b.source = (s₁.bSrcs.eventQueue.map (·.addr)).head? := by
    rw [hqueue.2]
    unfold nextAddr
    rw [hp]
    cases s.bSrcs.eventQueue with
    | nil =>
        show c.nextAddr = c.nextAddr.toList.head?
        cases c.nextAddr <;> rfl
    | cons r rest => rfl
  rw [hnext]
  refine ⟨?_⟩
  cases hrel with
  | idle he hs =>
      subst hs
      rw [he]
      exact ⟨[], by rw [List.append_nil]; exact hqueue.1, rfl⟩
  | next r rest he hsent =>
      rw [he, hsent.bQueue]
      exact ⟨_, congrArg (· ++ _) hqueue.1, rfl⟩

/-- **What a step pushes**, and the grants that are out then. -/
theorem act_probed (h : ServerOk [0] s none) (hs : s.act cfg a = .ok s') :
    Probed s s' (s.probes cfg a) ∧ (s.probes cfg a ≠ none → s'.ongoingTlc = s.granted a) ∨
    s.probes cfg a = none ∧ s'.bQueue = s.bQueue.tail := by
  cases act_turn hs with
  | request addr ha hr =>
      have hp : s.probes cfg a = if s.bSrcs.empty then none else some addr := by
        cases a with
        | c b => cases ha
        | _ => simp only [probes, ha]
      have hg : s.granted a = s.ongoingTlc := by
        cases a with
        | c b => cases ha
        | _ => rfl
      rw [hp, hg]
      exact .inl ⟨requests_probed h hr, fun _ => hr.ongoingTlc⟩
  | answer b ha hb hr =>
      subst ha
      obtain ⟨s₀, s₁, h₀, ho₀, hr, h₁, ho₁⟩ := hr.steps
      have hok₀ := serverOk_congr h h₀.bSrcs h₀.bCallback
      obtain ⟨c, hc⟩ := answerProbe_pending hok₀ hr
      have hp₀ : s₀.pending b.source = some c := by
        unfold pending Dict.getD
        rw [hc]
        rfl
      have hp : s.pending b.source = some c := by
        rw [← hp₀]
        unfold pending
        rw [h₀.bCallback]
      have hnext : s.probes cfg (.c b) = s₀.nextAddr b.source := by
        have hn : s₀.nextAddr b.source = s.nextAddr b.source := by
          unfold nextAddr
          rw [h₀.bSrcs, hp₀, hp]
        rw [hn]
        exact if_pos hb
      obtain ⟨new, hq, hnew⟩ := (answered_probed hok₀ hc hr).new
      rw [hnext]
      refine .inl ⟨⟨new, ?_, hnew⟩, fun _ => ?_⟩
      · rw [h₁.bQueue, hq, h₀.bQueue]
      · show s'.ongoingTlc = (s.pending b.source).elim _ _
        rw [hp, ho₁, answerProbe_ongoingTlc hc hr, ho₀]
        rfl
  | quiet ha hb _ _ hq =>
      have hp : s.probes cfg a = none := by
        cases a with
        | c b => simp only [probes, hb b rfl, Bool.false_eq_true, if_false]
        | _ => simp only [probes, ha, ite_self]
      rw [hp]
      rcases hq with hq | hq
      · exact .inl ⟨⟨[], by rw [List.append_nil]; exact hq, rfl⟩, fun hne => absurd rfl hne⟩
      · exact .inr ⟨rfl, hq⟩

/-- **A step is free of races exactly when it is clear.** -/
theorem noRace_iff (h : ServerOk [0] s none) (hs : s.act cfg a = .ok s') :
    NoRace cfg (s, a, s') ↔ s.Clear cfg a := by
  unfold NoRace Clear
  rcases act_probed h hs with ⟨hp, ho⟩ | ⟨hp, hq⟩
  · have hdrop := hp.drop
    constructor
    · intro hn addr ha
      rw [ha] at hdrop
      obtain ⟨p, hpm, hpa⟩ := List.mem_map.mp (hdrop ▸ List.mem_singleton_self addr :
        addr ∈ (s'.bQueue.drop s.bQueue.length).map (·.address))
      rw [← ho (by rw [ha]; exact fun e => (nomatch e)), ← hpa]
      exact hn p hpm
    · intro hc p hpm
      have hm : p.address ∈ (s.probes cfg a).toList := by
        rw [← hdrop]
        exact List.mem_map_of_mem hpm
      have ha : s.probes cfg a = some p.address := Option.mem_toList.mp hm
      show cfg.blockAddr p.address ∉ s'.ongoingTlc.values
      rw [ho (by rw [ha]; exact fun e => (nomatch e))]
      exact hc p.address ha
  · have hnil : s'.bQueue.drop s.bQueue.length = [] := by
      rw [hq]
      exact List.drop_eq_nil_of_le (by rw [List.length_tail]; omega)
    constructor
    · intro _ addr ha
      rw [hp] at ha
      cases ha
    · intro _ p hpm
      change p ∈ s'.bQueue.drop s.bQueue.length at hpm
      rw [hnil] at hpm
      cases hpm

end Adapter

end Step

/-- **Probes do not race grants exactly in the runs whose steps are all clear**: no probe is pushed
    for a block whose grant is not acknowledged, if and only if every request that is sent at once,
    every request that comes up when a probe is answered, the host's and the drain's, is for a block
    that is not granted at that moment. -/
theorem noRace_iff_clear {cfg : Config} {tr : List (Adapter × Action × Adapter)} {s : Adapter}
    (h : (machine cfg).Trace tr s) :
    (∀ x ∈ tr, NoRace cfg x) ↔ ∀ x ∈ tr, x.1.Clear cfg x.2.1 := by
  refine forall₂_congr fun x hx => ?_
  obtain ⟨hok, hs⟩ := trace_serverOk h x hx
  exact Adapter.noRace_iff hok hs

/-! ### Runs -/

namespace RacesDemo

def config : Config := { protocol := .tlC, lgDatalen := 6, bDatalen := 8 }

def start : Adapter := .start config .empty .empty false true 0 .insertion fun _ => 0

/-- The client acquires block 64, to write it. -/
def acquire : ABeat :=
  { opcode := .acquireBlock, param := NtoT, size := 6, source := 1, address := 64, mask := 255
    data := 0 }

/-- Another source reads a word of the block. -/
def get : ABeat :=
  { opcode := .get, param := 0, size := 3, source := 2, address := 72, mask := 255, data := 0 }

/-- The read comes before the grant is acknowledged. -/
def early : List Action := [.a acquire, .dPop, .a get]

/-- The read comes after it. -/
def late : List Action := [.a acquire, .dPop, .e 0, .a get]

theorem exec_trace (actions : List Action) :
    (machine config).Trace (exec (turn? config) start actions).1
      (exec (turn? config) start actions).2 :=
  Machine.exec_trace (fun _ _ _ => step_of_turn?) (.start _ ⟨_, _, _, _, _, _, _, rfl⟩) actions

end RacesDemo

theorem noRace_iff_clear_late :
    (exec (turn? RacesDemo.config) RacesDemo.start RacesDemo.late).1.length = RacesDemo.late.length ∧
      ∀ x ∈ (exec (turn? RacesDemo.config) RacesDemo.start RacesDemo.late).1,
        NoRace RacesDemo.config x :=
  ⟨by decide +kernel,
    (noRace_iff_clear (RacesDemo.exec_trace RacesDemo.late)).mpr (by decide +kernel)⟩

/-- The probe for the read is pushed while the grant is out. -/
theorem not_noRace_early : ∃ tr s, (machine RacesDemo.config).Trace tr s ∧
    ∃ x ∈ tr, ∃ p ∈ x.2.2.bQueue.drop x.1.bQueue.length,
      p.opcode = .probeBlock ∧ RacesDemo.config.blockAddr p.address ∈ x.2.2.ongoingTlc.values := by
  refine ⟨_, _, RacesDemo.exec_trace RacesDemo.early, ?_⟩
  decide +kernel

end Difuzz.TileLink
