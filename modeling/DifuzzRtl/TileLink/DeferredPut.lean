/-
  File:      DifuzzRtl/TileLink/DeferredPut.lean
  Subject:   A Put to a block that the client owns.

  The beats of such a Put go to a table while the block is probed. With the answer to the probe an
  AccessAck is queued, whose callback is to write the table to memory when the D driver takes it.
  The callback takes the keys of the table apart as if they were pairs, and raises.

  * `ProbeAnswer`, `Idle`, `PutSchedule` -- the answer of the client, the state in which the Put
    comes, and the order in which beats and drivers take their turns.
  * `play` -- a run of turns with the messages that are driven.
  * `EqualsDirect` -- the Put has the result that it has when the adapter owns the block.
  * `Owed` -- the invariant from the first beat on: the table has an entry, and the AccessAck is to
    come or is queued. No turn that succeeds ends it (`Owed.act`), so no run drains the queue.
-/
import DifuzzRtl.TileLink.ByteMemory
import DifuzzRtl.TileLink.Probes
import DifuzzRtl.TileLink.Stale

namespace Difuzz.TileLink

/-! ## 1. Beats, turns and what is asked of them -/

/-- The client gives a block up: without data, or with the data of as many beats as the size
    needs. Probes have one source. -/
inductive ProbeAnswer (cfg : Config) (block : Nat) where
  | ack (b : CBeat) (opcode : b.opcode = .probeAck) (source : b.source = 0) (param : b.param = TtoN)
      (address : cfg.blockAddr b.address = block)
  | data (b : CBeat) (rest : List CBeat) (opcode : b.opcode = .probeAckData) (source : b.source = 0)
      (param : b.param = TtoN) (address : cfg.blockAddr b.address = block)
      (length : (b :: rest).length = cfg.burstLen b.size)
      (same : ∀ b' ∈ rest, b'.opcode = b.opcode ∧ b'.param = b.param ∧ b'.size = b.size ∧
        b'.source = b.source ∧ b'.address = b.address)

/-- The words of the beats, one after the other. -/
def writeWords (cfg : Config) (memory : Dict Nat Nat) (a : Nat) : List CBeat → Dict Nat Nat
  | [] => memory
  | b :: bs => writeWords cfg (memory.set a b.data) (a + cfg.datalen) bs

namespace ProbeAnswer

variable {cfg : Config} {block : Nat}

def beats : ProbeAnswer cfg block → List CBeat
  | .ack b _ _ _ _ => [b]
  | .data b rest _ _ _ _ _ _ => b :: rest

/-- The memory with the data of the client written back. -/
def writeBack (memory : Dict Nat Nat) : ProbeAnswer cfg block → Dict Nat Nat
  | .ack _ _ _ _ _ => memory
  | .data b rest _ _ _ _ _ _ => writeWords cfg memory (cfg.addrAligned b.address) (b :: rest)

end ProbeAnswer

/-- Nothing is going on. -/
structure Idle (s : Adapter) : Prop where
  dQueue : s.dQueue = []
  bQueue : s.bQueue = []
  aOngoings : s.aOngoings = .empty
  cOngoings : s.cOngoings = .empty
  bSrcs : s.bSrcs = .new "b_srcs" [0]
  bCallback : s.bCallback = .new "b_callback" [0]

/-- The beat of channel A that a turn takes. -/
def Action.aBeat : Action → Option ABeat
  | .a b => some b
  | _ => none

/-- The beat of channel C that a turn takes. -/
def Action.cBeat : Action → Option CBeat
  | .c b => some b
  | _ => none

/-- **The order of turns**: the first beat of the Put makes the probe. The other beats, those of the
    answer and the turns of the two drivers come in any order. -/
structure PutSchedule {cfg : Config} (t : Transaction cfg)
    (answer : ProbeAnswer cfg (cfg.blockAddr t.head.address)) where
  turns : List Action
  first : turns.head? = some (.a t.head)
  aBeats : turns.filterMap Action.aBeat = t.beats
  cBeats : turns.filterMap Action.cBeat = answer.beats
  others : ∀ a ∈ turns, a.aBeat = none → a.cBeat = none → a = .dPop ∨ a = .bPop

/-- A run of turns, with the message that each of them drives on channel D. -/
def play (cfg : Config) (s : Adapter) :
    List Action → Except Error (List (Action × Option DMessage) × Adapter)
  | [] => .ok ([], s)
  | a :: as => do
      let s' ← s.act cfg a
      let (log, s'') ← play cfg s' as
      return ((a, if a = .dPop then s.driven else none) :: log, s'')

/-- The message acknowledges a Put of this size and source. -/
def DMessage.acknowledges (size source : Nat) (msg : DMessage) : Prop :=
  msg.opcode = .accessAck ∧ msg.size = size ∧ msg.source = source

/-- Exactly one such message is driven, after the last beat of channel A. -/
def OneAck (size source : Nat) (log : List (Action × Option DMessage)) : Prop :=
  ∃ l a msg l', log = l ++ (a, some msg) :: l' ∧ msg.acknowledges size source ∧
    (∀ e ∈ l ++ l', ∀ m, e.2 = some m → ¬ m.acknowledges size source) ∧
    ∀ e ∈ l', e.1.aBeat = none

/-- **The Put has the result of a direct one**: once the queue is drained, the memory reads as if the
    client had written its data back before the Put came, one AccessAck has been driven, and no beat
    is counted. -/
def EqualsDirect {cfg : Config} (s : Adapter) (t : Transaction cfg)
    (answer : ProbeAnswer cfg (cfg.blockAddr t.head.address)) (turns : List Action) : Prop :=
  ∃ n log s' direct, play cfg s (turns ++ List.replicate n .dPop) = .ok (log, s') ∧
    s'.dQueue = [] ∧
    { s with
      memory := answer.writeBack s.memory
      blockPerm := s.blockPerm.set (cfg.blockAddr t.head.address) .tip }.aRun cfg t.beats =
        .ok direct ∧
    (∀ x, s'.memory.getD x 0 = direct.memory.getD x 0) ∧
    OneAck t.head.size t.head.source log ∧ s'.aOngoings = .empty

/-! ## 2. What is owed -/

/-- The table of a burst has an entry. -/
def Filled (B : Nat) (s : Adapter) : Prop := (s.bursts.getD B .empty).entries ≠ []

/-- What is to come of the answer to the probe: a ProbeAck, or the rest of a ProbeAckData, whose
    beats so far have been counted. -/
inductive Awaits (cfg : Config) (s : Adapter) : List CBeat → Prop where
  | ack (b : CBeat) (opcode : b.opcode = .probeAck) (source : b.source = 0) : Awaits cfg s [b]
  | data (size n : Nat) (b : CBeat) (rest : List CBeat)
      (same : ∀ b' ∈ b :: rest, b'.opcode = .probeAckData ∧ b'.source = 0 ∧ b'.size = size)
      (counted : s.cOngoings = counts 0 n) (length : n + (b :: rest).length = cfg.burstLen size) :
      Awaits cfg s (b :: rest)

/-- **The write of the table `B` is owed**: its callback waits for the rest of the answer, or is in
    the D queue. -/
inductive Owed (cfg : Config) (B : Nat) (s : Adapter) : List CBeat → Prop where
  | probed (left : List CBeat) (n size source : Nat) (filled : Filled B s)
      (callback : s.bCallback.cMap.get? 0 = some (some (.accessAck n B size source)))
      (awaits : Awaits cfg s left) : Owed cfg B s left
  | queued (left : List CBeat) (msg : DMessage) (filled : Filled B s)
      (entry : (some msg, some (.updateMem B)) ∈ s.dQueue) : Owed cfg B s left

/-- When the answer is complete, there is an entry in the queue. -/
theorem Owed.dQueue_ne_nil {cfg : Config} {B : Nat} {s : Adapter} (h : Owed cfg B s []) :
    s.dQueue ≠ [] := by
  cases h with
  | probed n size source filled callback awaits => cases awaits
  | queued msg filled entry => exact List.ne_nil_of_mem entry

/-! ## 3. Tables of bursts -/

/-- A beat that goes to a table leaves no table without entry that had one. -/
theorem filled_modify {l : List (Dict Nat (Nat × Nat))} {B i k : Nat} {v : Nat × Nat}
    (h : (l.getD B .empty).entries ≠ [] ∨ (B = i ∧ B < l.length)) :
    ((l.modify i (·.set k v)).getD B .empty).entries ≠ [] := by
  rw [List.getD_eq_getElem?_getD, List.getElem?_modify]
  cases hB : l[B]? with
  | none =>
      rcases h with h | h
      · rw [List.getD_eq_getElem?_getD, hB] at h
        exact absurd rfl h
      · rw [List.getElem?_eq_getElem h.2] at hB
        cases hB
  | some d =>
      by_cases hi : i = B
      · simp only [hi, if_true, Option.map_eq_map, Option.map_some, Option.getD_some]
        exact Dict.set_entries_ne_nil d k v
      · rcases h with h | h
        · rw [List.getD_eq_getElem?_getD, hB] at h
          simp only [hi, if_false, Option.map_eq_map, Option.map_some, Option.getD_some]
          exact h
        · exact absurd h.1.symm hi

namespace Adapter

variable {cfg : Config} {s s' : Adapter} {B : Nat}

/-! ## 4. Requests -/

theorem retrieveBlockCb_bursts {r : Retrieve} (h : s.retrieveBlockCb r = .ok s') :
    s'.bursts = s.bursts ∧ s'.burstData = s.burstData := by
  unfold retrieveBlockCb at h
  simp only [bind_ok] at h
  obtain ⟨⟨bSrc, bSrcs, s₁⟩, h₁, bCallback, _, h⟩ := h
  obtain ⟨random, rfl⟩ := choice_spec h₁
  cases h
  exact ⟨rfl, rfl⟩

theorem retrieveBlock_bursts {c : Callback} {param size addr mask : Nat}
    (h : s.retrieveBlock c param size addr mask = .ok s') :
    s'.bursts = s.bursts ∧ s'.burstData = s.burstData := by
  unfold retrieveBlock at h
  simp only at h
  split at h
  · cases h
    exact ⟨rfl, rfl⟩
  · exact retrieveBlockCb_bursts h

/-- A request leaves the callback of a source that is in use alone. -/
theorem retrieveBlock_callback {c c' : Callback} {param size addr mask src : Nat}
    (h : s.retrieveBlock c param size addr mask = .ok s')
    (hc : s.bCallback.cMap.get? src = some (some c')) :
    s'.bCallback.cMap.get? src = some (some c') := by
  unfold retrieveBlock at h
  simp only at h
  split at h
  · cases h
    exact hc
  · unfold retrieveBlockCb at h
    simp only [bind_ok] at h
    obtain ⟨⟨bSrc, bSrcs, s₁⟩, h₁, bCallback, hset, h⟩ := h
    obtain ⟨random, rfl⟩ := choice_spec h₁
    cases h
    unfold SrcToCallback.set at hset
    simp only [bind_ok] at hset
    obtain ⟨_, _, hset⟩ := hset
    split at hset
    · cases hset
    · rename_i hnone
      cases hset
      have hne : src ≠ bSrc := by
        rintro rfl
        rw [hc] at hnone
        cases hnone
      show (s.bCallback.cMap.set bSrc _).get? src = _
      rw [Dict.get?_set, if_neg hne]
      exact hc
    · cases hset

theorem call_bursts {c : Callback} (h : s.call cfg c = .ok s') : s'.bursts = s.bursts := by
  cases c with
  | accessAck | accessAckData | grantData | enableProbe =>
      cases h
      rfl
  | arithmeticAck | logicalAck =>
      simp only [call, atomicAckCb] at h
      split at h <;> cases h
  | grant => cases h
  | probeBlocksRec addrs =>
      cases addrs with
      | nil =>
          cases h
          rfl
      | cons addr addrs => exact (retrieveBlock_bursts h).1

theorem bSrcsRelease_bursts {src : Nat} (h : s.bSrcsRelease src = .ok s') :
    s'.bursts = s.bursts := by
  unfold bSrcsRelease at h
  split at h
  · exact (retrieveBlockCb_bursts h).1
  · cases h
    rfl
  · cases h

theorem answerProbe_bursts {b : CBeat} (h : s.answerProbe cfg b = .ok s') :
    s'.bursts = s.bursts := by
  unfold answerProbe at h
  rw [bind_ok] at h
  obtain ⟨s₁, h₁, h⟩ := h
  rw [bSrcsRelease_bursts h]
  unfold bCallbackCall at h₁
  split at h₁
  · have hcall := call_bursts h₁
    exact hcall
  · cases h₁
    rfl
  · cases h₁

theorem returnBlock_bursts (b : CBeat) : (s.returnBlock cfg b).bursts = s.bursts := by
  unfold returnBlock
  split <;> rfl

/-- Channel C does not look at the tables. -/
theorem cOpcode_bursts {b : CBeat} (h : s.cOpcode cfg b = .ok s') : s'.bursts = s.bursts := by
  have hdata : ∀ {last : Adapter → Except Error Adapter},
      (∀ {s₁ s₂ : Adapter}, last s₁ = .ok s₂ → s₂.bursts = s₁.bursts) →
      s.dataBeat cfg b last = .ok s' → s'.bursts = s.bursts := by
    intro last hlast h
    unfold dataBeat at h
    simp only at h
    split at h
    · rw [bind_ok] at h
      obtain ⟨s₁, h₁, h⟩ := h
      cases h
      exact (hlast h₁).trans (returnBlock_bursts b)
    · cases h
      rfl
  unfold cOpcode at h
  split at h
  · cases h
  · cases h
  · cases h
  · cases h
    rfl
  · exact (answerProbe_bursts h).trans (returnBlock_bursts b)
  · exact hdata answerProbe_bursts h
  · cases h
    exact returnBlock_bursts b
  · refine hdata (fun hs => ?_) h
    cases hs
    rfl

/-! ## 5. Turns -/

/-- **A beat of a Put** leaves what is owed. -/
theorem putData_kept {b : ABeat} (h : s.putData cfg b = .ok s') (hf : Filled B s) :
    Filled B s' ∧ ∀ c, s.bCallback.cMap.get? 0 = some (some c) →
      s'.bCallback.cMap.get? 0 = some (some c) := by
  unfold putData at h
  simp only at h
  split at h
  · rw [bind_ok] at h
    obtain ⟨s₁, h₁, h⟩ := h
    -- a new table comes behind the others
    have hnew : Filled B s₁ ∧ ∀ c, s.bCallback.cMap.get? 0 = some (some c) →
        s₁.bCallback.cMap.get? 0 = some (some c) := by
      unfold newBurst at h₁
      split at h₁
      · refine ⟨?_, fun c hc => retrieveBlock_callback h₁ hc⟩
        unfold Filled
        rw [(retrieveBlock_bursts h₁).1]
        have hlt : B < s.bursts.length := by
          by_contra hge
          refine hf ?_
          rw [List.getD_eq_default _ _ (Nat.le_of_not_lt hge)]
          rfl
        show ((s.bursts ++ [Dict.empty]).getD B .empty).entries ≠ []
        rw [List.getD_append _ _ _ _ hlt]
        exact hf
      · cases h₁
        exact ⟨hf, fun _ hc => hc⟩
    unfold collect at h
    split at h
    · cases h
      exact ⟨filled_modify (.inl hnew.1), hnew.2⟩
    · cases h
  · split at h
    · cases h
      exact ⟨hf, fun _ hc => hc⟩
    · cases h
      exact ⟨hf, fun _ hc => hc⟩

/-- The D driver touches the queue and the permissions only. -/
theorem dPop_frame {o : Option DMessage} (h : s.dPop = .ok (o, s')) :
    s'.bursts = s.bursts ∧ s'.bCallback = s.bCallback ∧ s'.cOngoings = s.cOngoings := by
  unfold dPop at h
  split at h
  · cases h
    exact ⟨rfl, rfl, rfl⟩
  · cases h
    exact ⟨rfl, rfl, rfl⟩
  · cases h
    exact ⟨rfl, rfl, rfl⟩
  · rename_i m cb q _
    rw [bind_ok] at h
    obtain ⟨s₁, h₁, h⟩ := h
    cases h
    cases cb with
    | updateMem burst =>
        unfold callD updateMem at h₁
        simp only at h₁
        split at h₁
        · cases h₁
          exact ⟨rfl, rfl, rfl⟩
        · cases h₁
    | updatePerm blockAddr param =>
        cases h₁
        unfold updatePerm
        split <;> exact ⟨rfl, rfl, rfl⟩

/-- **Taking the entry raises**, so an entry that was there before a turn of the driver is there
    after it. -/
theorem dPop_kept {msg : DMessage} {o : Option DMessage} (hf : Filled B s)
    (he : (some msg, some (.updateMem B)) ∈ s.dQueue) (h : s.dPop = .ok (o, s')) :
    (some msg, some (.updateMem B)) ∈ s'.dQueue := by
  rw [(dPop_tail h).1]
  cases hq : s.dQueue with
  | nil =>
      rw [hq] at he
      cases he
  | cons e q =>
      rw [hq] at he
      rcases List.mem_cons.mp he with rfl | he
      · unfold dPop at h
        rw [hq] at h
        simp only [bind_ok] at h
        obtain ⟨s₁, h₁, _⟩ := h
        unfold callD updateMem at h₁
        simp only at h₁
        rw [if_neg hf] at h₁
        cases h₁
      · exact he

end Adapter

section Turns

variable {cfg : Config} {B : Nat} {s s' : Adapter}

theorem Awaits.congr {left : List CBeat} (h : Awaits cfg s left) (ho : s'.cOngoings = s.cOngoings) :
    Awaits cfg s' left := by
  cases h with
  | ack b opcode source => exact .ack b opcode source
  | data size n b rest same counted length =>
      exact .data size n b rest same (ho.trans counted) length

/-- What is owed does not depend on anything but these. -/
theorem Owed.congr {left : List CBeat} (h : Owed cfg B s left) (hb : s'.bursts = s.bursts)
    (hc : s'.bCallback = s.bCallback) (ho : s'.cOngoings = s.cOngoings) (hq : s'.dQueue = s.dQueue) :
    Owed cfg B s' left := by
  cases h with
  | probed n size source filled callback awaits =>
      refine .probed left n size source ?_ ?_ ?_
      · unfold Filled
        rw [hb]
        exact filled
      · rw [hc]
        exact callback
      · exact awaits.congr ho
  | queued msg filled entry =>
      refine .queued left msg ?_ ?_
      · unfold Filled
        rw [hb]
        exact filled
      · rw [hq]
        exact entry

/-- The callback of the probe queues the AccessAck, with the write of its table. -/
theorem answerProbe_queues {b : CBeat} {n size source : Nat} (hb : b.source = 0)
    (hc : s.bCallback.cMap.get? 0 = some (some (.accessAck n B size source)))
    (h : (s.returnBlock cfg b).answerProbe cfg b = .ok s') :
    ∃ msg, (some msg, some (.updateMem B)) ∈ s'.dQueue := by
  have hc' : (s.returnBlock cfg b).bCallback.cMap.get? 0 =
      some (some (.accessAck n B size source)) := by
    unfold Adapter.returnBlock
    split <;> exact hc
  unfold Adapter.answerProbe at h
  rw [bind_ok] at h
  obtain ⟨s₁, h₁, h⟩ := h
  rw [hb, Adapter.bCallbackCall_eq hc'] at h₁
  cases h₁
  refine ⟨{ opcode := .accessAck, size, source }, ?_⟩
  rw [(Adapter.bSrcsRelease_still h).dQueue]
  exact List.mem_append_right _ (List.mem_singleton_self _)

/-- **A beat of the answer**: the last one queues the AccessAck. -/
theorem Owed.answer {b : CBeat} {left : List CBeat} (h : Owed cfg B s (b :: left))
    (hs : s.cPortMonitor cfg b = .ok s') : Owed cfg B s' left := by
  have hop := Adapter.cPortMonitor_ok hs
  have hkept : Filled B s → Filled B s' := by
    intro hf
    unfold Filled
    rw [Adapter.cOpcode_bursts hop]
    exact hf
  cases h with
  | queued msg filled entry =>
      obtain ⟨new, hq, _⟩ := (Adapter.cOpcode_effect hop).dQueue
      refine .queued left msg (hkept filled) ?_
      rw [hq]
      exact List.mem_append_left _ entry
  | probed n size source filled callback awaits =>
      unfold Adapter.cOpcode at hop
      cases awaits with
      | ack _ opcode hb =>
          simp only [opcode] at hop
          obtain ⟨msg, hmsg⟩ := answerProbe_queues hb callback hop
          exact .queued [] msg (hkept filled) hmsg
      | data size' count _ _ same counted length =>
          obtain ⟨opcode, hb, hsize⟩ := same b List.mem_cons_self
          have hcount : s.cOngoings.getD b.source 0 = count := by
            rw [counted, hb, counts_getD]
          simp only [opcode] at hop
          unfold Adapter.dataBeat at hop
          simp only [hcount, hsize] at hop
          split at hop
          · rw [bind_ok] at hop
            obtain ⟨s₁, h₁, hop⟩ := hop
            cases hop
            obtain ⟨msg, hmsg⟩ := answerProbe_queues hb (by exact callback) h₁
            exact .queued left msg (hkept filled) hmsg
          · rename_i hmore
            cases hop
            cases left with
            | nil => exact absurd (by simpa using length) hmore
            | cons b' left =>
                refine .probed _ n size source filled callback (.data size' (count + 1) b' left
                  (fun x hx => same x (List.mem_cons_of_mem _ hx)) ?_ ?_)
                · show s.cOngoings.set b.source (count + 1) = _
                  rw [counted, hb, counts_set]
                · simp only [List.length_cons] at length ⊢
                  omega

/-- A beat of a Put. -/
def ABeat.isPut (b : ABeat) : Prop := b.opcode = .putFullData ∨ b.opcode = .putPartialData

theorem putData_of_isPut {b : ABeat} (hb : b.isPut) (hs : s.aPortMonitor cfg b = .ok s') :
    (s.touch (cfg.blockAddr b.address)).putData cfg b = .ok s' := by
  have hop := Adapter.aPortMonitor_ok hs
  unfold Adapter.aOpcode at hop
  rcases hb with hb | hb
  · simp only [hb] at hop
    exact hop
  · simp only [hb] at hop
    exact hop

/-- **A beat of a Put** leaves what is owed. -/
theorem Owed.put {b : ABeat} {left : List CBeat} (h : Owed cfg B s left) (hb : b.isPut)
    (hs : s.aPortMonitor cfg b = .ok s') : Owed cfg B s' left := by
  have hput := putData_of_isPut hb hs
  cases h with
  | probed n size source filled callback awaits =>
      obtain ⟨hf, hc⟩ := @Adapter.putData_kept cfg _ s' B b hput filled
      have ho : s'.cOngoings = s.cOngoings := (Adapter.putData_shuffles hput).cOngoings
      exact .probed left n size source hf (hc _ callback) (awaits.congr ho)
  | queued msg filled entry =>
      obtain ⟨hf, _⟩ := @Adapter.putData_kept cfg _ s' B b hput filled
      obtain ⟨new, hq, _⟩ := (@Adapter.putData_effect cfg _ s' 0 b hput).dQueue
      refine .queued left msg hf ?_
      rw [hq]
      exact List.mem_append_left _ entry

/-- **A turn of a driver** leaves what is owed: the D driver cannot take the entry. -/
theorem Owed.driver {a : Action} {left : List CBeat} (h : Owed cfg B s left)
    (ha : a = .dPop ∨ a = .bPop) (hs : s.act cfg a = .ok s') : Owed cfg B s' left := by
  rcases ha with rfl | rfl
  · unfold Adapter.act at hs
    rw [bind_ok] at hs
    obtain ⟨⟨o, s₁⟩, h₁, hs⟩ := hs
    cases hs
    obtain ⟨hb, hc, ho⟩ := Adapter.dPop_frame h₁
    have hkept : Filled B s → Filled B s' := by
      intro hf
      unfold Filled
      rw [hb]
      exact hf
    cases h with
    | probed n size source filled callback awaits =>
        refine .probed left n size source (hkept filled) ?_ (awaits.congr ho)
        rw [hc]
        exact callback
    | queued msg filled entry =>
        exact .queued left msg (hkept filled) (Adapter.dPop_kept filled entry h₁)
  · cases hs
    have hpop : s.bPop.2.bursts = s.bursts ∧ s.bPop.2.bCallback = s.bCallback ∧
        s.bPop.2.cOngoings = s.cOngoings ∧ s.bPop.2.dQueue = s.dQueue := by
      unfold Adapter.bPop
      split <;> exact ⟨rfl, rfl, rfl, rfl⟩
    exact h.congr hpop.1 hpop.2.1 hpop.2.2.1 hpop.2.2.2

/-! ## 6. Runs -/

theorem Idle.server (h : Idle s) : ServerOk [0] s none := by
  refine ⟨?_, ?_, ?_, ?_, fun src => ?_, fun hne => ?_⟩
  · rw [h.bSrcs]
    rfl
  · rw [h.bCallback]
    rfl
  · rw [h.bCallback]
    rfl
  · rw [h.bSrcs]
    exact List.nodup_singleton 0
  · rw [h.bSrcs, h.bCallback]
    show src ∈ [0] ↔ List.lookup src [(0, none)] = some none ∧ _
    by_cases hsrc : src = 0
    · simp [hsrc]
    · have hbeq : (src == 0) = false := by simpa using hsrc
      simp [hsrc, List.lookup_cons, hbeq]
  · rw [h.bSrcs] at hne
    exact absurd rfl hne

/-- **The first beat** of a Put to a block that is not the adapter's: the write of a new table is
    owed. -/
theorem owed_first {b : ABeat} {left : List CBeat} (hi : Idle s) (hb : b.isPut)
    (hp : s.perm (cfg.blockAddr b.address) ≠ .tip) (hs : s.aPortMonitor cfg b = .ok s')
    (hleft : Awaits cfg s left) : Owed cfg s.bursts.length s' left := by
  have hput := putData_of_isPut hb hs
  have ho : s'.cOngoings = s.cOngoings := (Adapter.putData_shuffles hput).cOngoings
  have hcount : (s.touch (cfg.blockAddr b.address)).aOngoings.getD b.source 0 = 0 := by
    show s.aOngoings.getD b.source 0 = 0
    rw [hi.aOngoings]
    rfl
  unfold Adapter.putData at hput
  simp only [hcount, Adapter.perm_touch] at hput
  rw [if_pos hp, bind_ok] at hput
  obtain ⟨s₁, h₁, hput⟩ := hput
  unfold Adapter.newBurst at h₁
  rw [if_pos rfl] at h₁
  have hbursts : s₁.bursts = s.bursts ++ [.empty] := (Adapter.retrieveBlock_bursts h₁).1
  have hdata : s₁.burstData = some s.bursts.length := (Adapter.retrieveBlock_bursts h₁).2
  -- the probe takes the one source, which is free
  have hcallback : s₁.bCallback.cMap.get? 0 =
      some (some (.accessAck (cfg.burstLen b.size) s.bursts.length b.size b.source)) := by
    have hserver : ServerOk [0] { s.touch (cfg.blockAddr b.address) with
        bursts := s.bursts ++ [.empty], burstData := some s.bursts.length } none :=
      Adapter.serverOk_congr hi.server rfl rfl
    obtain ⟨s₂, h₂, hreq, _⟩ := Adapter.retrieveBlock_requested hserver
      (.accessAck (cfg.burstLen b.size) s.bursts.length b.size b.source) toN b.size b.address b.mask
    obtain rfl : s₁ = s₂ := Except.ok.inj (h₁.symm.trans h₂)
    have hfree : s.bSrcs.freeList = [0] := by
      rw [hi.bSrcs]
      rfl
    cases hreq with
    | sent src hsent _ =>
        have hsrc : src ∈ s.bSrcs.freeList := hsent.free
        rw [hfree, List.mem_singleton] at hsrc
        rw [hsent.cMap, hsrc, if_pos rfl]
    | waits hempty _ =>
        have hempty : s.bSrcs.freeList = [] := hempty
        rw [hfree] at hempty
        cases hempty
  unfold Adapter.collect at hput
  rw [hdata] at hput
  cases hput
  refine .probed left _ _ _ ?_ hcallback (hleft.congr ho)
  unfold Filled
  rw [hbursts]
  refine filled_modify (.inr ⟨rfl, ?_⟩)
  rw [List.length_append]
  exact Nat.lt_succ_self _

/-- A run that succeeds, taken apart at its first turn. -/
theorem play_cons {a : Action} {as : List Action} {log : List (Action × Option DMessage)}
    (h : play cfg s (a :: as) = .ok (log, s')) :
    ∃ s₁ log₁, s.act cfg a = .ok s₁ ∧ play cfg s₁ as = .ok (log₁, s') := by
  unfold play at h
  rw [bind_ok] at h
  obtain ⟨s₁, h₁, h⟩ := h
  rw [bind_ok] at h
  obtain ⟨⟨log₁, s₂⟩, h₂, h⟩ := h
  cases h
  exact ⟨s₁, log₁, h₁, h₂⟩

/-- **What is owed stays owed**, in every run of beats of Puts, beats of the answer and turns of the
    drivers. -/
theorem Owed.play {turns : List Action} {log : List (Action × Option DMessage)} {left : List CBeat}
    (ha : ∀ a ∈ turns, ∀ b, a.aBeat = some b → b.isPut)
    (hother : ∀ a ∈ turns, a.aBeat = none → a.cBeat = none → a = .dPop ∨ a = .bPop)
    (h : Owed cfg B s (turns.filterMap Action.cBeat ++ left))
    (hrun : TileLink.play cfg s turns = .ok (log, s')) : Owed cfg B s' left := by
  induction turns generalizing s log with
  | nil =>
      cases hrun
      exact h
  | cons a turns ih =>
      obtain ⟨s₁, log₁, hact, hrun⟩ := play_cons hrun
      refine ih (fun a' h' => ha a' (List.mem_cons_of_mem _ h'))
        (fun a' h' => hother a' (List.mem_cons_of_mem _ h')) ?_ hrun
      cases hA : a.aBeat with
      | some b =>
          have hb := ha a List.mem_cons_self b hA
          cases a <;> cases hA
          exact h.put hb hact
      | none =>
          cases hC : a.cBeat with
          | some b =>
              cases a <;> cases hC
              exact Owed.answer h hact
          | none =>
              rw [List.filterMap_cons_none hC] at h
              exact h.driver (hother a List.mem_cons_self hA hC) hact

theorem play_left {as bs : List Action} {log : List (Action × Option DMessage)}
    (h : play cfg s (as ++ bs) = .ok (log, s')) : ∃ log₁ s₁, play cfg s as = .ok (log₁, s₁) := by
  induction as generalizing s log with
  | nil => exact ⟨[], s, rfl⟩
  | cons a as ih =>
      obtain ⟨s₁, log₁, hact, hrun⟩ := play_cons h
      obtain ⟨log₂, s₂, h₂⟩ := ih hrun
      refine ⟨(a, if a = .dPop then s.driven else none) :: log₂, s₂, ?_⟩
      unfold play
      rw [hact]
      show (play cfg s₁ as >>= _) = _
      rw [h₂]
      rfl

end Turns

/-! ## 7. No deferred Put settles -/

section Never

variable {cfg : Config}

theorem Transaction.isPut_of_mem {t : Transaction cfg} (ht : t.head.isPut) :
    ∀ b ∈ t.beats, b.isPut := by
  cases t with
  | get b opcode aligned =>
      rcases ht with ht | ht
      · rw [show (Transaction.get b opcode aligned).head.opcode = .get from opcode] at ht
        cases ht
      · rw [show (Transaction.get b opcode aligned).head.opcode = .get from opcode] at ht
        cases ht
  | put b rest opcode aligned length same =>
      intro b' hb'
      rcases List.mem_cons.mp hb' with rfl | hb'
      · exact opcode
      · unfold ABeat.isPut
        rw [(same b' hb').1]
        exact opcode

/-- Before its first beat, the whole answer is to come. -/
theorem ProbeAnswer.awaits {block : Nat} (answer : ProbeAnswer cfg block) {s : Adapter}
    (ho : s.cOngoings = .empty) : Awaits cfg s answer.beats := by
  cases answer with
  | ack b opcode source param address => exact .ack b opcode source
  | data b rest opcode source param address length same =>
      refine .data b.size 0 b rest (fun b' hb' => ?_) ho ?_
      · rcases List.mem_cons.mp hb' with rfl | hb'
        · exact ⟨opcode, source, rfl⟩
        · obtain ⟨h₁, _, h₂, h₃, _⟩ := same b' hb'
          exact ⟨h₁.trans opcode, h₃.trans source, h₂⟩
      · rw [Nat.zero_add]
        exact length

/-- **A deferred Put never equals a direct one.** Whatever the Put, the answer of the client and the
    order of turns are: the table that the first beat makes has an entry, and the D driver raises
    when it takes the AccessAck. -/
theorem not_equalsDirect (t : Transaction cfg) (ht : t.head.isPut) {s : Adapter} (hi : Idle s)
    (hp : s.perm (cfg.blockAddr t.head.address) ≠ .tip)
    (answer : ProbeAnswer cfg (cfg.blockAddr t.head.address)) (sched : PutSchedule t answer) :
    ¬ EqualsDirect s t answer sched.turns := by
  intro h
  obtain ⟨n, log, s', direct, hrun, hq, _⟩ := h
  obtain ⟨turns, first, aBeats, cBeats, others⟩ := sched
  obtain ⟨rest, rfl⟩ : ∃ rest, turns = .a t.head :: rest := by
    cases turns with
    | nil => cases first
    | cons a rest =>
        cases first
        exact ⟨rest, rfl⟩
  rw [List.cons_append] at hrun
  obtain ⟨s₁, log₁, hact, hrun⟩ := play_cons hrun
  have hput : ∀ a ∈ rest ++ List.replicate n .dPop, ∀ b, a.aBeat = some b → b.isPut := by
    intro a ha b hb
    rcases List.mem_append.mp ha with ha | ha
    · refine Transaction.isPut_of_mem ht b ?_
      rw [← aBeats]
      exact List.mem_filterMap.mpr ⟨a, List.mem_cons_of_mem _ ha, hb⟩
    · rw [List.eq_of_mem_replicate ha] at hb
      cases hb
  have hother : ∀ a ∈ rest ++ List.replicate n .dPop, a.aBeat = none → a.cBeat = none →
      a = .dPop ∨ a = .bPop := by
    intro a ha hA hC
    rcases List.mem_append.mp ha with ha | ha
    · exact others a (List.mem_cons_of_mem _ ha) hA hC
    · exact .inl (List.eq_of_mem_replicate ha)
  have hcs : (rest ++ List.replicate n Action.dPop).filterMap Action.cBeat = answer.beats := by
    rw [List.filterMap_append, ← cBeats, List.filterMap_replicate_of_none rfl, List.append_nil,
      List.filterMap_cons_none rfl]
  have howed := owed_first hi ht hp hact (answer.awaits hi.cOngoings)
  rw [← List.append_nil answer.beats, ← hcs] at howed
  exact (howed.play hput hother hrun).dQueue_ne_nil hq

end Never

namespace Demo

/-- The client may write the block. -/
def lent : Adapter := { adapter with blockPerm := adapter.blockPerm.set 0x80000000 .trunk }

theorem lent_idle : Idle lent := ⟨rfl, rfl, rfl, rfl, rfl, rfl⟩

/-- One beat. -/
def putOne : Transaction config :=
  .put ⟨.putFullData, 0, 3, 1, 0x80000000, 0xFF, 0xAB⟩ [] (.inl rfl) rfl rfl fun _ h => nomatch h

def probeAck : ProbeAnswer config (config.blockAddr putOne.head.address) :=
  .ack ⟨.probeAck, TtoN, 3, 0, 0x80000000, 0, 0⟩ rfl rfl rfl rfl

/-- The answer comes after the beat. -/
def afterBeat : PutSchedule putOne probeAck where
  turns := [.a putOne.head, .bPop, .c ⟨.probeAck, TtoN, 3, 0, 0x80000000, 0, 0⟩, .dPop]
  first := rfl
  aBeats := rfl
  cBeats := rfl
  others := by decide

def probeAckData : ProbeAnswer config (config.blockAddr putTwo.head.address) :=
  .data ⟨.probeAckData, TtoN, 4, 0, 0x80000000, 0x1, 0⟩
    [⟨.probeAckData, TtoN, 4, 0, 0x80000000, 0x2, 0⟩] rfl rfl rfl rfl rfl (by decide)

/-- The answer comes between the beats. -/
def betweenBeats : PutSchedule putTwo probeAckData where
  turns := [.a putTwo.head, .bPop, .c ⟨.probeAckData, TtoN, 4, 0, 0x80000000, 0x1, 0⟩,
    .c ⟨.probeAckData, TtoN, 4, 0, 0x80000000, 0x2, 0⟩,
    .a ⟨.putPartialData, 0, 4, 1, 0x80000000, 0x81, 0xCD000000000000EF⟩, .dPop]
  first := rfl
  aBeats := rfl
  cBeats := rfl
  others := by decide

end Demo

/-- A Put of two beats, with the answer between them. -/
theorem not_equalsDirect_betweenBeats :
    ¬ EqualsDirect Demo.lent Demo.putTwo Demo.probeAckData Demo.betweenBeats.turns :=
  not_equalsDirect Demo.putTwo (.inr rfl) Demo.lent_idle (by decide +kernel) Demo.probeAckData
    Demo.betweenBeats

/-- **A Put of one beat raises** when its AccessAck is to be driven, so nothing is written. -/
theorem putOne_raises : (play Demo.config Demo.lent Demo.afterBeat.turns).isOk = false ∧
    ¬ EqualsDirect Demo.lent Demo.putOne Demo.probeAck Demo.afterBeat.turns := by
  have hraise : (play Demo.config Demo.lent Demo.afterBeat.turns).isOk = false := by
    decide +kernel
  refine ⟨hraise, ?_⟩
  intro hx
  obtain ⟨n, log, s', direct, hrun, _⟩ := hx
  obtain ⟨log₁, s₁, h₁⟩ := play_left hrun
  rw [h₁] at hraise
  cases hraise

end Difuzz.TileLink
