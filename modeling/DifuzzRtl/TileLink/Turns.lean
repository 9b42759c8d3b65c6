/-
  File:      DifuzzRtl/TileLink/Turns.lean
  Subject:   What each step of the adapter does to the service of probes.

  * `Turn`, `act_turn` -- a step makes one request, answers one probe, or leaves the service alone;
    which of these is read off the state and the beat (`asked`, `finishes`).
  * `act_probing`, `trace_serverOk` -- so every run of the adapter is a sequence of requests and
    answers as in Probes.lean.
-/
import DifuzzRtl.TileLink.Actions
import DifuzzRtl.TileLink.Probes

namespace Difuzz.TileLink

/-! ## 1. Requests and answers -/

/-- Nothing happens to the service, the B queue included. -/
structure SameService (s s' : Adapter) : Prop where
  bSrcs : s'.bSrcs = s.bSrcs
  bCallback : s'.bCallback = s.bCallback
  bQueue : s'.bQueue = s.bQueue

theorem SameService.refl (s : Adapter) : SameService s s := ⟨rfl, rfl, rfl⟩

theorem SameService.trans {s s' s'' : Adapter} (h : SameService s s') (h' : SameService s' s'') :
    SameService s s'' :=
  ⟨h'.bSrcs.trans h.bSrcs, h'.bCallback.trans h.bCallback, h'.bQueue.trans h.bQueue⟩

/-- The step makes one request, for the address; the grants that are out stay the same. -/
structure Requests (s s' : Adapter) (addr : Nat) : Prop where
  steps : ∃ s₀ s₁ c param size mask, SameService s s₀ ∧
    s₀.retrieveBlock c param size addr mask = .ok s₁ ∧ SameService s₁ s' ∧
    s₁.ongoingTlc = s₀.ongoingTlc
  ongoingTlc : s'.ongoingTlc = s.ongoingTlc

/-- The step answers a probe. -/
structure Answers (cfg : Config) (s s' : Adapter) (b : CBeat) : Prop where
  steps : ∃ s₀ s₁, SameService s s₀ ∧ s₀.ongoingTlc = s.ongoingTlc ∧
    s₀.answerProbe cfg b = .ok s₁ ∧ SameService s₁ s' ∧ s'.ongoingTlc = s₁.ongoingTlc

namespace Adapter

variable {cfg : Config} {s s' : Adapter}

theorem retrieveBlockCb_ongoingTlc {r : Retrieve} (h : s.retrieveBlockCb r = .ok s') :
    s'.ongoingTlc = s.ongoingTlc := by
  unfold retrieveBlockCb at h
  simp only [bind_ok] at h
  obtain ⟨⟨bSrc, bSrcs, s₁⟩, h₁, bCallback, _, h⟩ := h
  obtain ⟨random, rfl⟩ := choice_spec h₁
  cases h
  rfl

theorem retrieveBlock_ongoingTlc {c : Callback} {param size addr mask : Nat}
    (h : s.retrieveBlock c param size addr mask = .ok s') : s'.ongoingTlc = s.ongoingTlc := by
  unfold retrieveBlock at h
  simp only at h
  split at h
  · cases h
    rfl
  · exact retrieveBlockCb_ongoingTlc h

/-- A request, with nothing else around it that matters. -/
theorem requests_of {s₀ s₁ : Adapter} {c : Callback} {param size addr mask : Nat}
    (h₀ : SameService s s₀) (ho₀ : s₀.ongoingTlc = s.ongoingTlc)
    (hs : s₀.retrieveBlock c param size addr mask = .ok s₁) (h₁ : SameService s₁ s')
    (ho₁ : s'.ongoingTlc = s₁.ongoingTlc) : Requests s s' addr := by
  have ho := retrieveBlock_ongoingTlc hs
  exact ⟨⟨s₀, s₁, c, param, size, mask, h₀, hs, h₁, ho⟩, ho₁.trans (ho.trans ho₀)⟩

/-! ## 2. Channel A -/

/-- The opcodes whose beats need the block; of a Put, the first beat. -/
def needsBlock (cfg : Config) (count : Nat) : AOpcode → Bool
  | .get => true
  | .putFullData | .putPartialData => count = 0
  | .arithmeticData | .logicalData => cfg.protocol.hasUh
  | .acquireBlock => cfg.protocol = .tlC
  | .intent | .acquirePerm => false

/-- A beat of channel A asks for a block that is not the adapter's. -/
def asks (cfg : Config) (s : Adapter) (b : ABeat) : Bool :=
  s.perm (cfg.blockAddr b.address) ≠ .tip && needsBlock cfg (s.aOngoings.getD b.source 0) b.opcode

theorem putData_service {b : ABeat} (h : s.putData cfg b = .ok s') :
    (s.perm (cfg.blockAddr b.address) ≠ .tip ∧ s.aOngoings.getD b.source 0 = 0 ∧
      Requests s s' b.address) ∨
    (¬ (s.perm (cfg.blockAddr b.address) ≠ .tip ∧ s.aOngoings.getD b.source 0 = 0) ∧
      SameService s s') := by
  unfold putData at h
  simp only at h
  split at h
  · rename_i hperm
    rw [bind_ok] at h
    obtain ⟨s₁, h₁, h⟩ := h
    -- the beat itself goes to the table
    have hcollect : SameService s₁ s' ∧ s'.ongoingTlc = s₁.ongoingTlc := by
      unfold collect at h
      split at h
      · cases h
        exact ⟨⟨rfl, rfl, rfl⟩, rfl⟩
      · cases h
    unfold newBurst at h₁
    split at h₁
    · rename_i hcount
      have hsame : SameService s
          { s with bursts := s.bursts ++ [.empty], burstData := some s.bursts.length } :=
        ⟨rfl, rfl, rfl⟩
      exact .inl ⟨hperm, hcount, requests_of hsame rfl h₁ hcollect.1 hcollect.2⟩
    · rename_i hcount
      cases h₁
      exact .inr ⟨fun hc => hcount hc.2, hcollect.1⟩
  · rename_i hperm
    refine .inr ⟨fun hc => hperm hc.1, ?_⟩
    split at h
    · cases h
      exact ⟨rfl, rfl, rfl⟩
    · cases h
      exact ⟨rfl, rfl, rfl⟩

theorem atomicData_service {b : ABeat} {title : String} {op : Nat → Nat → Option Int}
    {callback : Nat → Nat → Nat → Nat → Nat → Nat → Nat → Callback}
    (h : s.atomicData cfg b title op callback = .ok s') :
    (s.perm (cfg.blockAddr b.address) ≠ .tip ∧ Requests s s' b.address) ∨
    (¬ s.perm (cfg.blockAddr b.address) ≠ .tip ∧ SameService s s') := by
  unfold atomicData at h
  simp only [bind_ok] at h
  obtain ⟨_, _, offset, _, h⟩ := h
  split at h
  · rename_i hperm
    exact .inl ⟨hperm, requests_of (.refl s) rfl h (.refl s') rfl⟩
  · rename_i hperm
    refine .inr ⟨hperm, ?_⟩
    unfold atomicOp at h
    simp only at h
    split at h
    · cases h
    · cases h
      exact ⟨rfl, rfl, rfl⟩

theorem acquireBlock_service {b : ABeat} (h : s.acquireBlock cfg b = .ok s') :
    (s.perm (cfg.blockAddr b.address) ≠ .tip ∧ Requests s s' b.address) ∨
    (¬ s.perm (cfg.blockAddr b.address) ≠ .tip ∧ SameService s s') := by
  unfold acquireBlock at h
  rw [bind_ok] at h
  obtain ⟨⟨dSink, dSinks, s₁⟩, hchoice, h⟩ := h
  obtain ⟨random, rfl⟩ := choice_spec hchoice
  simp only at h
  split at h
  · rename_i hperm
    have hsame : SameService s { s with dSinks, random } := ⟨rfl, rfl, rfl⟩
    exact .inl ⟨hperm, requests_of hsame rfl h (.refl s') rfl⟩
  · rename_i hperm
    cases h
    exact .inr ⟨hperm, rfl, rfl, rfl⟩

theorem acquirePerm_service {b : ABeat} (h : s.acquirePerm cfg b = .ok s') : SameService s s' := by
  unfold acquirePerm at h
  rw [bind_ok] at h
  obtain ⟨⟨dSink, dSinks, s₁⟩, hchoice, h⟩ := h
  obtain ⟨random, rfl⟩ := choice_spec hchoice
  simp only at h
  split at h
  · cases h
  · cases h
    exact ⟨rfl, rfl, rfl⟩

/-- **A beat of channel A** makes a request for its address, or leaves the service alone. -/
theorem aOpcode_service {b : ABeat} (h : s.aOpcode cfg b = .ok s') :
    (s.asks cfg b = true ∧ Requests s s' b.address) ∨ (s.asks cfg b = false ∧ SameService s s') := by
  unfold aOpcode at h
  unfold asks needsBlock
  cases hop : b.opcode with
  | get =>
      simp only [hop] at h
      unfold getData at h
      simp only at h
      split at h
      · rename_i hperm
        exact .inl ⟨by simp [hperm], requests_of (.refl s) rfl h (.refl s') rfl⟩
      · rename_i hperm
        cases h
        exact .inr ⟨by simpa using hperm, rfl, rfl, rfl⟩
  | putFullData | putPartialData =>
      simp only [hop] at h
      rcases putData_service h with ⟨hp, hc, hr⟩ | ⟨hn, hsame⟩
      · exact .inl ⟨by simp [hp, hc], hr⟩
      · exact .inr ⟨by simpa using hn, hsame⟩
  | arithmeticData | logicalData =>
      simp only [hop] at h
      split at h
      · rename_i hUh
        rcases atomicData_service h with ⟨hp, hr⟩ | ⟨hn, hsame⟩
        · exact .inl ⟨by simp [hp, hUh], hr⟩
        · exact .inr ⟨by simp [not_not.mp hn], hsame⟩
      · rename_i hUh
        cases h
        exact .inr ⟨by simp [hUh], .refl s⟩
  | intent =>
      simp only [hop] at h
      refine .inr ⟨Bool.and_false _, ?_⟩
      split at h
      · cases h
        exact ⟨rfl, rfl, rfl⟩
      · cases h
        exact .refl s
  | acquireBlock =>
      simp only [hop] at h
      split at h
      · rename_i htl
        rcases acquireBlock_service h with ⟨hp, hr⟩ | ⟨hn, hsame⟩
        · exact .inl ⟨by simp [hp, htl], hr⟩
        · exact .inr ⟨by simp [not_not.mp hn], hsame⟩
      · rename_i htl
        cases h
        exact .inr ⟨by simp [htl], .refl s⟩
  | acquirePerm =>
      simp only [hop] at h
      refine .inr ⟨Bool.and_false _, ?_⟩
      split at h
      · exact acquirePerm_service h
      · cases h
        exact .refl s

/-! ## 3. Channel C -/

/-- The last beat of the answer to a probe. -/
def finishes (cfg : Config) (s : Adapter) (b : CBeat) : Bool :=
  match b.opcode with
  | .probeAck => true
  | .probeAckData => s.cOngoings.getD b.source 0 + 1 = cfg.burstLen b.size
  | _ => false

theorem returnBlock_service (b : CBeat) :
    SameService s (s.returnBlock cfg b) ∧ (s.returnBlock cfg b).ongoingTlc = s.ongoingTlc := by
  unfold returnBlock
  split
  · exact ⟨⟨rfl, rfl, rfl⟩, rfl⟩
  · exact ⟨.refl s, rfl⟩

theorem memory_service (memory : Dict Nat Nat) : SameService s { s with memory } := ⟨rfl, rfl, rfl⟩

/-- **A beat of channel C** answers a probe, or leaves the service alone. -/
theorem cOpcode_service {b : CBeat} (h : s.cOpcode cfg b = .ok s') :
    (s.finishes cfg b = true ∧ Answers cfg s s' b) ∨
    (s.finishes cfg b = false ∧ SameService s s') := by
  unfold cOpcode at h
  unfold finishes
  cases hop : b.opcode with
  | accessAck | accessAckData | hintAck =>
      simp only [hop] at h
      cases h
  | reserved =>
      simp only [hop] at h
      cases h
      exact .inr ⟨rfl, .refl s⟩
  | probeAck =>
      simp only [hop] at h
      obtain ⟨hsame, ho⟩ := @returnBlock_service cfg s b
      exact .inl ⟨rfl, _, _, hsame, ho, h, .refl s', rfl⟩
  | probeAckData =>
      simp only [hop] at h
      unfold dataBeat at h
      simp only at h
      split at h
      · rename_i hlast
        rw [bind_ok] at h
        obtain ⟨s₁, h₁, h⟩ := h
        cases h
        refine .inl ⟨by simpa using hlast, _, s₁, ?_, ?_, h₁, ⟨rfl, rfl, rfl⟩, rfl⟩
        · exact (memory_service _).trans (returnBlock_service b).1
        · exact (returnBlock_service b).2
      · rename_i hlast
        cases h
        exact .inr ⟨by simpa using hlast, rfl, rfl, rfl⟩
  | release =>
      simp only [hop] at h
      cases h
      have hsame := (@returnBlock_service cfg s b).1
      exact .inr ⟨rfl, hsame.trans ⟨rfl, rfl, rfl⟩⟩
  | releaseData =>
      simp only [hop] at h
      refine .inr ⟨rfl, ?_⟩
      unfold dataBeat at h
      simp only at h
      split at h
      · rw [bind_ok] at h
        obtain ⟨s₁, h₁, h⟩ := h
        cases h₁
        cases h
        exact ((memory_service _).trans (returnBlock_service b).1).trans ⟨rfl, rfl, rfl⟩
      · cases h
        exact ⟨rfl, rfl, rfl⟩

/-! ## 4. Every step -/

/-- The address that a step asks a probe for. -/
def asked (cfg : Config) (s : Adapter) : Action → Option Nat
  | .a b => if s.asks cfg b then some b.address else none
  | .hostInterface =>
      if s.probe ∧ s.probeEn ∧ s.probeAddr ∉ s.ongoingTlc.values ∧
          s.blockPerm.contains (cfg.blockAddr s.probeAddr) ∧
          s.perm (cfg.blockAddr s.probeAddr) ≠ .tip then some s.probeAddr else none
  | .dataRetriever =>
      if s.retrieve ∧ s.retriever then
        (s.blockPerm.keys.filter fun addr => s.perm addr ≠ Perm.tip).head?
      else none
  | _ => none

/-- **What a step does to the service.** -/
inductive Turn (cfg : Config) (s s' : Adapter) (a : Action) : Prop where
  | request (addr : Nat) (ha : s.asked cfg a = some addr) (hs : Requests s s' addr)
  | answer (b : CBeat) (ha : a = .c b) (hb : s.finishes cfg b = true) (hs : Answers cfg s s' b)
  | quiet (ha : s.asked cfg a = none) (hb : ∀ b, a = .c b → s.finishes cfg b = false)
      (hsrcs : s'.bSrcs = s.bSrcs) (hcall : s'.bCallback = s.bCallback)
      (hq : s'.bQueue = s.bQueue ∨ s'.bQueue = s.bQueue.tail)

/-- The same for a turn that is not a pop of channel B: only that takes a probe from the queue. -/
inductive Serves (cfg : Config) (s s' : Adapter) (a : Action) : Prop where
  | request (addr : Nat) (ha : s.asked cfg a = some addr) (hs : Requests s s' addr)
  | answer (b : CBeat) (ha : a = .c b) (hb : s.finishes cfg b = true) (hs : Answers cfg s s' b)
  | quiet (ha : s.asked cfg a = none) (hb : ∀ b, a = .c b → s.finishes cfg b = false)
      (hs : SameService s s')

theorem asks_touch (b : ABeat) (addr : Nat) : (s.touch addr).asks cfg b = s.asks cfg b := by
  unfold asks
  rw [perm_touch]
  rfl

theorem aPortMonitor_serves {b : ABeat} (h : s.act cfg (.a b) = .ok s') : Serves cfg s s' (.a b) := by
  have hop := aPortMonitor_ok h
  have hask : s.asked cfg (.a b) = if s.asks cfg b then some b.address else none := rfl
  rcases aOpcode_service hop with ⟨hb, hr⟩ | ⟨hb, hsame⟩
  · rw [asks_touch] at hb
    obtain ⟨⟨s₀, s₁, c, param, size, mask, h₀, hs, h₁, ho⟩, ho'⟩ := hr
    refine .request b.address (by rw [hask, if_pos hb]) ⟨⟨s₀, s₁, c, param, size, mask, ?_, hs, h₁, ho⟩,
      ho'⟩
    exact ⟨h₀.bSrcs, h₀.bCallback, h₀.bQueue⟩
  · rw [asks_touch] at hb
    refine .quiet (by rw [hask, hb]; rfl) (fun b' hb' => by cases hb') ?_
    exact ⟨hsame.bSrcs, hsame.bCallback, hsame.bQueue⟩

theorem cPortMonitor_serves {b : CBeat} (h : s.act cfg (.c b) = .ok s') : Serves cfg s s' (.c b) := by
  rcases cOpcode_service (cPortMonitor_ok h) with ⟨hb, hs⟩ | ⟨hb, hsame⟩
  · exact .answer b rfl hb hs
  · refine .quiet rfl (fun b' hb' => ?_) hsame
    cases hb'
    exact hb

theorem ePortMonitor_service {sink : Nat} (h : s.ePortMonitor sink = .ok s') : SameService s s' := by
  unfold ePortMonitor at h
  rw [bind_ok] at h
  obtain ⟨⟨dSinks, _⟩, _, h⟩ := h
  simp only at h
  split at h
  · cases h
    exact ⟨rfl, rfl, rfl⟩
  · cases h

/-- What waits in the queue of channel D asks for no probe. -/
theorem callD_service {cb : DCallback} (h : s.callD cb = .ok s') : SameService s s' := by
  cases cb with
  | updateMem burst =>
      simp only [callD, updateMem] at h
      split at h
      · cases h
        exact ⟨rfl, rfl, rfl⟩
      · cases h
  | updatePerm blk param =>
      simp only [callD, updatePerm, Except.ok.injEq] at h
      subst h
      split <;> exact ⟨rfl, rfl, rfl⟩

theorem dPop_service {msg : Option DMessage} (h : s.dPop = .ok (msg, s')) : SameService s s' := by
  unfold Adapter.dPop at h
  split at h
  · cases h
    exact .refl s
  · cases h
    exact ⟨rfl, rfl, rfl⟩
  · cases h
    exact ⟨rfl, rfl, rfl⟩
  · rw [bind_ok] at h
    obtain ⟨s₂, h₂, h⟩ := h
    cases h
    have hcall := callD_service h₂
    exact ⟨hcall.bSrcs, hcall.bCallback, hcall.bQueue⟩

theorem hostInterface_serves (h : s.act cfg .hostInterface = .ok s') : Serves cfg s s' .hostInterface := by
  unfold act Adapter.hostInterface at h
  simp only at h
  split at h
  · rename_i hc
    split at h
    · rename_i hp
      rw [bind_ok] at h
      obtain ⟨s₁, h₁, h⟩ := h
      cases h
      refine .request s.probeAddr ?_ (requests_of (.refl s) rfl h₁ ⟨rfl, rfl, rfl⟩ rfl)
      exact if_pos ⟨hc.1, hc.2.1, hc.2.2, hp.1, hp.2⟩
    · rename_i hp
      cases h
      exact .quiet (if_neg fun hn => hp hn.2.2.2) (fun b hb => by cases hb) (.refl s)
  · rename_i hc
    cases h
    exact .quiet (if_neg fun hn => hc ⟨hn.1, hn.2.1, hn.2.2.1⟩) (fun b hb => by cases hb) (.refl s)

theorem dataRetriever_serves (h : s.act cfg .dataRetriever = .ok s') : Serves cfg s s' .dataRetriever := by
  unfold act Adapter.dataRetriever at h
  simp only at h
  split at h
  · rename_i hc
    have hask : s.asked cfg .dataRetriever =
        (s.blockPerm.keys.filter fun addr => s.perm addr ≠ Perm.tip).head? := if_pos hc
    cases haddrs : s.blockPerm.keys.filter fun addr => s.perm addr ≠ Perm.tip with
    | nil =>
        rw [haddrs] at h hask
        cases h
        exact .quiet hask (fun b hb => by cases hb) ⟨rfl, rfl, rfl⟩
    | cons addr addrs =>
        rw [haddrs] at h hask
        have hsame : SameService s { s with retriever := false } := ⟨rfl, rfl, rfl⟩
        exact .request addr hask (requests_of hsame rfl h (.refl s') rfl)
  · rename_i hc
    cases h
    exact .quiet (if_neg hc) (fun b hb => by cases hb) (.refl s)

theorem act_serves {a : Action} (h : s.act cfg a = .ok s') (hpop : a ≠ .bPop) :
    Serves cfg s s' a := by
  cases a with
  | a b => exact aPortMonitor_serves h
  | c b => exact cPortMonitor_serves h
  | e sink => exact .quiet rfl (fun b hb => by cases hb) (ePortMonitor_service h)
  | dPop =>
      unfold act at h
      simp only [bind_ok] at h
      obtain ⟨⟨msg, s₁⟩, h₁, h⟩ := h
      cases h
      exact .quiet rfl (fun b hb => by cases hb) (dPop_service h₁)
  | bPop => exact absurd rfl hpop
  | probeBlock addr =>
      cases h
      exact .quiet rfl (fun b hb => by cases hb) ⟨rfl, rfl, rfl⟩
  | hostInterface => exact hostInterface_serves h
  | stop =>
      cases h
      exact .quiet rfl (fun b hb => by cases hb) ⟨rfl, rfl, rfl⟩
  | dataRetriever => exact dataRetriever_serves h

theorem act_turn {a : Action} (h : s.act cfg a = .ok s') : Turn cfg s s' a := by
  by_cases hpop : a = .bPop
  · subst hpop
    cases h
    refine .quiet rfl (fun b hb => by cases hb) ?_ ?_ ?_
    · unfold Adapter.bPop
      split <;> rfl
    · unfold Adapter.bPop
      split <;> rfl
    · unfold Adapter.bPop
      split
      · exact .inl rfl
      · rename_i hq
        exact .inr (by rw [hq]; rfl)
  · cases act_serves h hpop with
    | request addr ha hs => exact .request addr ha hs
    | answer b ha hb hs => exact .answer b ha hb hs
    | quiet ha hb hs => exact .quiet ha hb hs.bSrcs hs.bCallback (.inl hs.bQueue)

/-- An answer is accepted only for a source with a callback. -/
theorem answerProbe_pending {ids : List Nat} {b : CBeat} (h : ServerOk ids s none)
    (hs : s.answerProbe cfg b = .ok s') : ∃ c, s.bCallback.cMap.get? b.source = some (some c) := by
  unfold answerProbe at hs
  rw [bind_ok] at hs
  obtain ⟨s₁, h₁, h₂⟩ := hs
  unfold bCallbackCall SrcToCallback.call at h₁
  cases hget : s.bCallback.cMap.get? b.source with
  | none =>
      rw [hget] at h₁
      cases h₁
  | some x =>
      cases x with
      | some c => exact ⟨c, rfl⟩
      | none =>
          -- the source is free, and releasing it again fails
          rw [hget] at h₁
          cases h₁
          have hfree := (h.free b.source).mpr ⟨hget, fun e => (nomatch e)⟩
          unfold bSrcsRelease FreeList.release at h₂
          split at h₂
          · rename_i hrel
            simp only [bind_ok, check_ok] at hrel
            obtain ⟨_, _, _, hnot, _⟩ := hrel
            exact absurd hfree hnot
          · rename_i hrel
            simp only [bind_ok, check_ok] at hrel
            obtain ⟨_, _, _, hnot, _⟩ := hrel
            exact absurd hfree hnot
          · cases h₂

/-- **Every step of the adapter is a sequence of requests and answers**, whatever is sent to it. -/
theorem act_probing {ids : List Nat} {log : ProbeLog} {a : Action} (hids : ids.Nodup)
    (h : Probing cfg ids s log) (hs : s.act cfg a = .ok s') : ∃ log', Probing cfg ids s' log' := by
  cases act_turn hs with
  | request addr _ hr =>
      obtain ⟨s₀, s₁, c, param, size, mask, h₀, hr, h₁, _⟩ := hr.steps
      have hp₀ := Probing.other s s₀ log h h₀.bSrcs h₀.bCallback
      have hp₁ := Probing.request s₀ s₁ log c param size addr mask hp₀ hr
      exact ⟨_, .other s₁ s' _ hp₁ h₁.bSrcs h₁.bCallback⟩
  | answer b _ _ hr =>
      obtain ⟨s₀, s₁, h₀, _, hr, h₁, _⟩ := hr.steps
      have hp₀ := Probing.other s s₀ log h h₀.bSrcs h₀.bCallback
      have hlog := hp₀.logOk hids
      have hb := (hlog.issued.mem b.source).mpr (answerProbe_pending hlog.server hr)
      have hp₁ := Probing.probeAck s₀ s₁ log b hp₀ hb hr
      exact ⟨_, .other s₁ s' _ hp₁ h₁.bSrcs h₁.bCallback⟩
  | quiet _ _ hsrcs hcall _ => exact ⟨log, .other s s' log h hsrcs hcall⟩

end Adapter

theorem starts_probing {cfg : Config} {s : Adapter} (h : Adapter.Starts cfg s) :
    ∃ log, Probing cfg [0] s log := by
  obtain ⟨memory, ongoingTlc, probe, probeEn, probeAddr, σ, random, rfl⟩ := h
  exact ⟨_, .start _ rfl rfl⟩

theorem step_probing {cfg : Config} {s s' : Adapter} {a : Action}
    (h : ∃ log, Probing cfg [0] s log) (hs : (machine cfg).step s a s') :
    ∃ log, Probing cfg [0] s' log := by
  obtain ⟨log, hlog⟩ := h
  exact Adapter.act_probing (List.nodup_singleton 0) hlog hs.2

/-- **In every run of the adapter probe requests are served so**, with its one source: each step
    starts from such a state. -/
theorem trace_serverOk {cfg : Config} {tr : List (Adapter × Action × Adapter)} {s : Adapter}
    (h : (machine cfg).Trace tr s) :
    ∀ x ∈ tr, ServerOk [0] x.1 none ∧ x.1.act cfg x.2.1 = .ok x.2.2 := by
  intro x hx
  obtain ⟨⟨log, hlog⟩, hs⟩ := h.steps (P := fun _ _ => True) (fun _ => starts_probing)
    (fun _ _ _ hp _ => step_probing hp) (fun _ _ => trivial) x hx
  exact ⟨(hlog.logOk (List.nodup_singleton 0)).server, hs.2⟩

end Difuzz.TileLink
