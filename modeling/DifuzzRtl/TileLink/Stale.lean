/-
  File:      DifuzzRtl/TileLink/Stale.lean
  Subject:   The data of grants against the memory.

  The words of a grant are read when it is queued, and driven when its beats leave the queue. What is
  written in between does not reach the client.

  * `Tagged` -- the adapter, and for each entry of the D queue the address of the word that a beat
    there carries. A message of channel D has no address: the tags are kept beside the adapter, and
    no step reads them.
  * `Current` -- a GrantData beat that is driven carries what the memory holds then.
  * `Undisturbed` -- the condition on the state before and the step: it writes no word that a beat of
    a grant in the queue carries.
  * `current_of_undisturbed` -- in every run whose steps are undisturbed, all beats are current.
-/
import DifuzzRtl.TileLink.Actions
import DifuzzRtl.TileLink.Grants

namespace Difuzz.TileLink

/-! ## 1. Addresses of beats -/

/-- The address of the grant that a callback pushes, if it pushes one. -/
def Callback.grantBase : Callback → Nat
  | .grantData _ addrAligned _ _ _ _ _ => addrAligned
  | _ => 0

/-- The address of the grant that a step pushes, if it pushes one: that of the Acquire, or the one
    kept in the callback of the probe that is answered. -/
def Adapter.grantBase (cfg : Config) (s : Adapter) : Action → Nat
  | .a b => cfg.addrAligned b.address
  | .c b => (s.bCallback.cMap.getD b.source none).elim 0 Callback.grantBase
  | _ => 0

/-- The adapter with the addresses of the entries of its D queue. -/
structure Tagged where
  adapter : Adapter
  tags : List Nat

/-- The tags after a step: an entry that leaves takes its tag along, and the entries that are pushed
    are the beats of one burst. -/
def Tagged.retag (cfg : Config) (t : Tagged) (s' : Adapter) : Action → List Nat
  | .dPop => t.tags.tail
  | a => t.tags ++ (List.range (s'.dQueue.length - t.adapter.dQueue.length)).map fun i =>
      t.adapter.grantBase cfg a + i * cfg.datalen

/-- The adapter as a system of steps, with tags. -/
def taggedMachine (cfg : Config) : Machine Tagged Action where
  init t := Adapter.Starts cfg t.adapter ∧ t.tags = []
  step t a t' := (machine cfg).step t.adapter a t'.adapter ∧ t'.tags = t.retag cfg t'.adapter a

/-- The message that the D driver takes next and drives. -/
def Adapter.driven (s : Adapter) : Option DMessage := s.dPop.toOption.bind (·.1)

/-- **A GrantData beat that the step drives carries the word that the memory holds.** -/
def Current (x : Tagged × Action × Tagged) : Prop :=
  x.2.1 = .dPop → ∀ msg ∈ x.1.adapter.driven, msg.opcode = .grantData →
    ∃ addr ∈ x.1.tags.head?, msg.data = x.2.2.adapter.memory.getD addr 0

instance (x : Tagged × Action × Tagged) : Decidable (Current x) := by
  unfold Current
  infer_instance

/-- The word that a step writes: a beat of a Put or an atomic operation on a block of the adapter, a
    beat with data on channel C. -/
def Adapter.written (cfg : Config) (s : Adapter) : Action → Option Nat
  | .a b =>
      let getAddr := cfg.addrAligned b.address + s.aOngoings.getD b.source 0 * cfg.datalen
      match b.opcode with
      | .putFullData | .putPartialData =>
          if s.perm (cfg.blockAddr b.address) = .tip then some getAddr else none
      | .arithmeticData | .logicalData =>
          if cfg.protocol.hasUh ∧ s.perm (cfg.blockAddr b.address) = .tip then some getAddr else none
      | _ => none
  | .c b =>
      match b.opcode with
      | .probeAckData | .releaseData =>
          some (cfg.addrAligned b.address + s.cOngoings.getD b.source 0 * cfg.datalen)
      | _ => none
  | _ => none

/-- The entry is a beat of a GrantData. -/
def DEntry.isGrantData (e : DEntry) : Bool := (e.1.map (·.opcode)) = some .grantData

/-- **The step writes no word that a grant in the queue carries.** -/
def Undisturbed (cfg : Config) (t : Tagged) (a : Action) : Prop :=
  ∀ addr ∈ t.adapter.written cfg a, ∀ e ∈ t.adapter.dQueue.zip t.tags,
    DEntry.isGrantData e.1 = true → e.2 ≠ addr

instance (cfg : Config) (t : Tagged) (a : Action) : Decidable (Undisturbed cfg t a) := by
  unfold Undisturbed
  infer_instance

/-! ## 2. What a step does to the queue and the memory -/

/-- Entries that are pushed: the beats of a grant among them carry the words from `base` on. -/
def Carry (cfg : Config) (memory : Dict Nat Nat) (base : Nat) (new : List DEntry) : Prop :=
  ∀ i msg cb, new[i]? = some (some msg, cb) → msg.opcode = .grantData →
    msg.data = memory.getD (base + i * cfg.datalen) 0

/-- The step pushes such entries, and writes at most the word `w`. -/
structure Effect (cfg : Config) (s s' : Adapter) (base : Nat) (w : Option Nat) : Prop where
  dQueue : ∃ new, s'.dQueue = s.dQueue ++ new ∧ Carry cfg s'.memory base new
  memory : ∀ x, w ≠ some x → s'.memory.getD x 0 = s.memory.getD x 0

/-- Neither the queue nor the memory changes. -/
structure Still (s s' : Adapter) : Prop where
  dQueue : s'.dQueue = s.dQueue
  memory : s'.memory = s.memory

section Effects

variable {cfg : Config} {s s₁ s' : Adapter} {base : Nat} {w : Option Nat}

theorem Still.effect (h : Still s s') : Effect cfg s s' base w := by
  refine ⟨⟨[], by rw [h.dQueue, List.append_nil], fun i msg cb hi => ?_⟩, fun x _ => by rw [h.memory]⟩
  cases hi

theorem Still.effect_trans (h : Still s s₁) (h' : Effect cfg s₁ s' base w) :
    Effect cfg s s' base w := by
  obtain ⟨⟨new, hq, hc⟩, hm⟩ := h'
  refine ⟨⟨new, by rw [hq, h.dQueue], hc⟩, fun x hx => ?_⟩
  rw [hm x hx, h.memory]

theorem Effect.still_trans (h : Effect cfg s s₁ base w) (h' : Still s₁ s') :
    Effect cfg s s' base w := by
  obtain ⟨⟨new, hq, hc⟩, hm⟩ := h
  refine ⟨⟨new, by rw [h'.dQueue, hq], by rw [h'.memory]; exact hc⟩, fun x hx => ?_⟩
  rw [h'.memory, hm x hx]

/-- Entries without a grant are pushed, and the memory reads as before but for one word. -/
theorem effect_of_push {new : List DEntry} (hq : s'.dQueue = s.dQueue ++ new)
    (hnew : ∀ e ∈ new, Plain e) (hm : ∀ x, w ≠ some x → s'.memory.getD x 0 = s.memory.getD x 0) :
    Effect cfg s s' base w := by
  refine ⟨⟨new, hq, fun i msg cb hi hop => ?_⟩, hm⟩
  have hg := (hnew _ (List.mem_of_getElem? hi)).1 msg rfl
  unfold DMessage.isGrant at hg
  rw [hop] at hg
  cases hg

namespace Adapter

theorem retrieveBlockCb_still {r : Retrieve} (h : s.retrieveBlockCb r = .ok s') : Still s s' := by
  unfold retrieveBlockCb at h
  simp only [bind_ok] at h
  obtain ⟨⟨bSrc, bSrcs, s₁⟩, h₁, bCallback, _, h⟩ := h
  obtain ⟨random, rfl⟩ := choice_spec h₁
  cases h
  exact ⟨rfl, rfl⟩

theorem retrieveBlock_still {c : Callback} {param size addr mask : Nat}
    (h : s.retrieveBlock c param size addr mask = .ok s') : Still s s' := by
  unfold retrieveBlock at h
  simp only at h
  split at h
  · cases h
    exact ⟨rfl, rfl⟩
  · exact retrieveBlockCb_still h

theorem accessAckDataCb_effect (burstLen addrAligned size source : Nat) :
    Effect cfg s (s.accessAckDataCb cfg burstLen addrAligned size source) base w := by
  obtain ⟨hq, hm⟩ := s.accessAckDataCb_spec cfg burstLen addrAligned size source
  refine effect_of_push hq (fun e he => ?_) fun x _ => hm x
  obtain ⟨msg, hmsg, rfl⟩ := List.mem_map.mp he
  obtain ⟨i, _, rfl⟩ := List.mem_map.mp hmsg
  exact plain_of_msg rfl

/-- **A grant carries the words of the memory at its address.** -/
theorem grantDataCb_effect (burstLen addrAligned param sink size source blockAddr : Nat) :
    Effect cfg s (s.grantDataCb cfg burstLen addrAligned param sink size source blockAddr) addrAligned
      w := by
  obtain ⟨hmsgs, hm⟩ := getDMessages_spec cfg .grantData s.memory addrAligned param size source sink
    burstLen
  refine ⟨⟨_, rfl, fun i msg cb hi _ => ?_⟩, fun x _ => hm x⟩
  show msg.data = (getDMessages cfg .grantData s.memory addrAligned param size source sink
    burstLen).2.getD (addrAligned + i * cfg.datalen) 0
  rw [hm]
  obtain ⟨hi, _⟩ := List.getElem?_zip_eq_some.mp hi
  rw [hmsgs, List.getElem?_map, List.getElem?_map] at hi
  cases hr : (List.range burstLen)[i]? with
  | none =>
      rw [hr] at hi
      cases hi
  | some j =>
      have hj : j = i := by
        rw [List.getElem?_eq_some_iff] at hr
        obtain ⟨_, hr⟩ := hr
        rw [← hr, List.getElem_range]
      rw [hr, hj] at hi
      cases hi
      rfl

/-- The grant of a callback is for the address that it keeps. -/
theorem call_effect {c : Callback} (h : s.call cfg c = .ok s') :
    Effect cfg s s' c.grantBase w := by
  cases c with
  | accessAck burstLen burst size source =>
      cases h
      refine effect_of_push (List.append_assoc ..) (fun e he => ?_) fun _ _ => rfl
      rcases List.mem_append.mp he with he | he
      · rw [List.eq_of_mem_replicate he]
        exact ⟨fun msg hm => (nomatch hm), fun a p => (nomatch ·)⟩
      · rw [List.mem_singleton.mp he]
        refine ⟨fun msg hm => ?_, fun a p => (nomatch ·)⟩
        cases hm
        rfl
  | accessAckData =>
      cases h
      exact accessAckDataCb_effect ..
  | arithmeticAck | logicalAck =>
      simp only [call, atomicAckCb] at h
      split at h <;> cases h
  | grant => cases h
  | grantData =>
      cases h
      exact grantDataCb_effect ..
  | probeBlocksRec addrs =>
      cases addrs with
      | nil =>
          cases h
          exact (Still.effect ⟨rfl, rfl⟩)
      | cons addr addrs => exact (retrieveBlock_still h).effect
  | enableProbe =>
      cases h
      exact (Still.effect ⟨rfl, rfl⟩)

theorem bSrcsRelease_still {src : Nat} (h : s.bSrcsRelease src = .ok s') : Still s s' := by
  unfold bSrcsRelease at h
  split at h
  · have hs := retrieveBlockCb_still h
    exact ⟨hs.dQueue, hs.memory⟩
  · cases h
    exact ⟨rfl, rfl⟩
  · cases h

theorem answerProbe_effect {b : CBeat} (h : s.answerProbe cfg b = .ok s') :
    Effect cfg s s' (s.grantBase cfg (.c b)) w := by
  unfold answerProbe at h
  rw [bind_ok] at h
  obtain ⟨s₁, h₁, h⟩ := h
  refine Effect.still_trans ?_ (bSrcsRelease_still h)
  unfold bCallbackCall SrcToCallback.call at h₁
  cases hget : s.bCallback.cMap.get? b.source with
  | none =>
      rw [hget] at h₁
      cases h₁
  | some x =>
      rw [hget] at h₁
      cases x with
      | none =>
          cases h₁
          exact (Still.effect ⟨rfl, rfl⟩)
      | some c =>
          have hbase : s.grantBase cfg (.c b) = c.grantBase := by
            show (s.bCallback.cMap.getD b.source none).elim 0 Callback.grantBase = _
            unfold Dict.getD
            rw [hget]
            rfl
          rw [hbase]
          have hs : Still s { s with bCallback := { s.bCallback with
            cMap := s.bCallback.cMap.set b.source none } } := ⟨rfl, rfl⟩
          exact hs.effect_trans (call_effect h₁)

theorem putData_effect {b : ABeat} (h : s.putData cfg b = .ok s') :
    Effect cfg s s' base (if s.perm (cfg.blockAddr b.address) = .tip then
      some (cfg.addrAligned b.address + s.aOngoings.getD b.source 0 * cfg.datalen) else none) := by
  unfold putData at h
  simp only at h
  split at h
  · rename_i hperm
    rw [if_neg hperm]
    rw [bind_ok] at h
    obtain ⟨s₁, h₁, h⟩ := h
    have hnew : Still s s₁ := by
      unfold newBurst at h₁
      split at h₁
      · have hs := retrieveBlock_still h₁
        exact ⟨hs.dQueue, hs.memory⟩
      · cases h₁
        exact ⟨rfl, rfl⟩
    unfold collect at h
    split at h
    · cases h
      exact hnew.effect_trans (Still.effect ⟨rfl, rfl⟩)
    · cases h
  · rename_i hperm
    rw [if_pos (not_not.mp hperm)]
    -- one word is written
    have hmem : ∀ x v, some (cfg.addrAligned b.address + s.aOngoings.getD b.source 0 * cfg.datalen) ≠
        some x → (s.memory.set (cfg.addrAligned b.address +
          s.aOngoings.getD b.source 0 * cfg.datalen) v).getD x 0 = s.memory.getD x 0 := by
      intro x v hx
      rw [Dict.getD_set, if_neg fun e => hx (congrArg some e.symm)]
    split at h
    · cases h
      refine effect_of_push rfl (fun e he => ?_) fun x hx => hmem x _ hx
      rw [List.mem_singleton.mp he]
      exact plain_of_msg rfl
    · cases h
      exact effect_of_push (List.append_nil _).symm (fun e he => by cases he) fun x hx => hmem x _ hx

theorem atomicData_effect {b : ABeat} {title : String} {op : Nat → Nat → Option Int}
    {callback : Nat → Nat → Nat → Nat → Nat → Nat → Nat → Callback}
    (h : s.atomicData cfg b title op callback = .ok s') :
    Effect cfg s s' base (if s.perm (cfg.blockAddr b.address) = .tip then
      some (cfg.addrAligned b.address + s.aOngoings.getD b.source 0 * cfg.datalen) else none) := by
  unfold atomicData at h
  simp only [bind_ok] at h
  obtain ⟨_, _, offset, _, h⟩ := h
  split at h
  · exact (retrieveBlock_still h).effect
  · rename_i hperm
    rw [if_pos (not_not.mp hperm)]
    unfold atomicOp at h
    simp only at h
    split at h
    · cases h
    · cases h
      refine effect_of_push rfl (fun e he => ?_) fun x hx => ?_
      · rw [List.mem_singleton.mp he]
        exact plain_of_msg rfl
      · have hne : x ≠ cfg.addrAligned b.address + s.aOngoings.getD b.source 0 * cfg.datalen :=
          fun e => hx (congrArg some e.symm)
        show Dict.getD (Dict.set _ _ _) x 0 = _
        rw [Dict.getD_set, if_neg hne]
        split
        · rfl
        · rw [Dict.getD_set, if_neg hne]

/-- **A beat of channel A.** -/
theorem aOpcode_effect {b : ABeat} (h : s.aOpcode cfg b = .ok s') :
    Effect cfg s s' (s.grantBase cfg (.a b)) (s.written cfg (.a b)) := by
  unfold aOpcode at h
  unfold written grantBase
  cases hop : b.opcode with
  | get =>
      simp only [hop] at h
      unfold getData at h
      simp only at h
      split at h
      · exact (retrieveBlock_still h).effect
      · cases h
        exact accessAckDataCb_effect ..
  | putFullData | putPartialData =>
      simp only [hop] at h ⊢
      exact putData_effect h
  | arithmeticData | logicalData =>
      simp only [hop] at h ⊢
      split at h
      · rename_i hUh
        simp only [hUh, true_and]
        exact atomicData_effect h
      · cases h
        exact (Still.effect ⟨rfl, rfl⟩)
  | intent =>
      simp only [hop] at h
      split at h
      · cases h
        refine effect_of_push rfl (fun e he => ?_) fun _ _ => rfl
        rw [List.mem_singleton.mp he]
        exact plain_of_msg rfl
      · cases h
        exact (Still.effect ⟨rfl, rfl⟩)
  | acquireBlock =>
      simp only [hop] at h
      split at h
      · unfold acquireBlock at h
        rw [bind_ok] at h
        obtain ⟨⟨dSink, dSinks, s₁⟩, hchoice, h⟩ := h
        obtain ⟨random, rfl⟩ := choice_spec hchoice
        have hs : Still s { s with dSinks, random } := ⟨rfl, rfl⟩
        refine hs.effect_trans ?_
        simp only at h
        split at h
        · exact (retrieveBlock_still h).effect
        · cases h
          exact grantDataCb_effect ..
      · cases h
        exact (Still.effect ⟨rfl, rfl⟩)
  | acquirePerm =>
      simp only [hop] at h
      split at h
      · unfold acquirePerm at h
        rw [bind_ok] at h
        obtain ⟨⟨dSink, dSinks, s₁⟩, hchoice, h⟩ := h
        obtain ⟨random, rfl⟩ := choice_spec hchoice
        simp only at h
        split at h
        · cases h
        · -- a Grant carries no data
          cases h
          refine ⟨⟨_, rfl, fun i msg cb hi hd => ?_⟩, fun _ _ => rfl⟩
          have hm := List.mem_singleton.mp (List.mem_of_getElem? hi)
          cases hm
          cases hd
      · cases h
        exact (Still.effect ⟨rfl, rfl⟩)

theorem returnBlock_still (cfg : Config) (b : CBeat) : Still s (s.returnBlock cfg b) := by
  unfold returnBlock
  split <;> exact ⟨rfl, rfl⟩

/-- A beat with data writes its word. -/
theorem dataBeat_effect {b : CBeat} {last : Adapter → Except Error Adapter}
    (hlast : ∀ {s₁ s₂ : Adapter}, last s₁ = .ok s₂ → s₁.bCallback = s.bCallback →
      Effect cfg s₁ s₂ (s.grantBase cfg (.c b))
        (some (cfg.addrAligned b.address + s.cOngoings.getD b.source 0 * cfg.datalen)))
    (h : s.dataBeat cfg b last = .ok s') :
    Effect cfg s s' (s.grantBase cfg (.c b))
      (some (cfg.addrAligned b.address + s.cOngoings.getD b.source 0 * cfg.datalen)) := by
  have hmem : ∀ x, some (cfg.addrAligned b.address + s.cOngoings.getD b.source 0 * cfg.datalen) ≠
      some x → (s.memory.set (cfg.addrAligned b.address +
        s.cOngoings.getD b.source 0 * cfg.datalen) b.data).getD x 0 = s.memory.getD x 0 := by
    intro x hx
    rw [Dict.getD_set, if_neg fun e => hx (congrArg some e.symm)]
  unfold dataBeat at h
  simp only at h
  split at h
  · rw [bind_ok] at h
    obtain ⟨s₁, h₁, h⟩ := h
    cases h
    have hcb : ∀ s₀ : Adapter, (s₀.returnBlock cfg b).bCallback = s₀.bCallback := by
      intro s₀
      unfold returnBlock
      split <;> rfl
    have heff := hlast h₁ (hcb _)
    obtain ⟨⟨new, hq, hc⟩, hm⟩ := (returnBlock_still cfg b).effect_trans heff
    exact ⟨⟨new, hq, hc⟩, fun x hx => (hm x hx).trans (hmem x hx)⟩
  · cases h
    exact effect_of_push (List.append_nil _).symm (fun e he => by cases he) hmem

/-- **A beat of channel C.** -/
theorem cOpcode_effect {b : CBeat} (h : s.cOpcode cfg b = .ok s') :
    Effect cfg s s' (s.grantBase cfg (.c b)) (s.written cfg (.c b)) := by
  have hbase : ∀ {s₁ : Adapter}, s₁.bCallback = s.bCallback →
      s₁.grantBase cfg (.c b) = s.grantBase cfg (.c b) := by
    intro s₁ hcb
    unfold grantBase
    rw [hcb]
  have hpush : ∀ {s₁ : Adapter} {base w}, Effect cfg s₁ (s₁.releaseAck b) base w := by
    intro s₁ base w
    refine effect_of_push rfl (fun e he => ?_) fun _ _ => rfl
    rw [List.mem_singleton.mp he]
    exact plain_of_msg rfl
  unfold cOpcode at h
  unfold written
  cases hop : b.opcode with
  | accessAck | accessAckData | hintAck =>
      simp only [hop] at h
      cases h
  | reserved =>
      simp only [hop] at h
      cases h
      exact (Still.effect ⟨rfl, rfl⟩)
  | probeAck =>
      simp only [hop] at h
      have hcb : (s.returnBlock cfg b).bCallback = s.bCallback := by
        unfold returnBlock
        split <;> rfl
      refine (returnBlock_still cfg b).effect_trans ?_
      rw [← hbase hcb]
      exact answerProbe_effect h
  | probeAckData =>
      simp only [hop] at h ⊢
      refine dataBeat_effect (fun {s₁ s₂} hs hcb => ?_) h
      rw [← hbase hcb]
      exact answerProbe_effect hs
  | release =>
      simp only [hop] at h
      cases h
      exact (returnBlock_still cfg b).effect_trans hpush
  | releaseData =>
      simp only [hop] at h ⊢
      refine dataBeat_effect (fun {s₁ s₂} hs _ => ?_) h
      cases hs
      exact hpush

/-- **What a step does that pops nothing.** -/
theorem act_effect {a : Action} (ha : a ≠ .dPop) (h : s.act cfg a = .ok s') :
    Effect cfg s s' (s.grantBase cfg a) (s.written cfg a) := by
  cases a with
  | a b =>
      have heff := aOpcode_effect (aPortMonitor_ok h)
      have hw : (s.touch (cfg.blockAddr b.address)).written cfg (.a b) = s.written cfg (.a b) := by
        unfold written
        simp only [perm_touch]
        rfl
      rw [hw] at heff
      have hs : Still s (s.touch (cfg.blockAddr b.address)) := ⟨rfl, rfl⟩
      exact hs.effect_trans heff
  | c b => exact cOpcode_effect (cPortMonitor_ok h)
  | e sink =>
      unfold act ePortMonitor at h
      rw [bind_ok] at h
      obtain ⟨⟨dSinks, _⟩, _, h⟩ := h
      simp only at h
      split at h
      · cases h
        exact (Still.effect ⟨rfl, rfl⟩)
      · cases h
  | dPop => exact absurd rfl ha
  | bPop =>
      cases h
      refine Still.effect ?_
      unfold Adapter.bPop
      split <;> exact ⟨rfl, rfl⟩
  | probeBlock addr =>
      cases h
      exact (Still.effect ⟨rfl, rfl⟩)
  | hostInterface =>
      unfold act Adapter.hostInterface at h
      simp only at h
      split at h
      · split at h
        · rw [bind_ok] at h
          obtain ⟨s₁, h₁, h⟩ := h
          cases h
          have hs := retrieveBlock_still h₁
          exact (Still.effect ⟨hs.dQueue, hs.memory⟩)
        · cases h
          exact (Still.effect ⟨rfl, rfl⟩)
      · cases h
        exact (Still.effect ⟨rfl, rfl⟩)
  | stop =>
      cases h
      exact (Still.effect ⟨rfl, rfl⟩)
  | dataRetriever =>
      unfold act Adapter.dataRetriever at h
      simp only at h
      split at h
      · cases haddrs : s.blockPerm.keys.filter fun addr => s.perm addr ≠ Perm.tip with
        | nil =>
            rw [haddrs] at h
            cases h
            exact (Still.effect ⟨rfl, rfl⟩)
        | cons addr addrs =>
            rw [haddrs] at h
            have hs := retrieveBlock_still h
            exact (Still.effect ⟨hs.dQueue, hs.memory⟩)
      · cases h
        exact (Still.effect ⟨rfl, rfl⟩)

/-- **What popping does**: the queue shrinks, the memory stays. -/
theorem dPop_tail {msg : Option DMessage} (h : s.dPop = .ok (msg, s')) :
    s'.dQueue = s.dQueue.tail ∧ s'.memory = s.memory ∧
    ∀ m, msg = some m → ∃ cb, s.dQueue.head? = some (some m, cb) := by
  unfold dPop at h
  split at h
  · rename_i hq
    cases h
    exact ⟨by rw [hq]; rfl, rfl, fun m hm => (nomatch hm)⟩
  · rename_i hq
    cases h
    exact ⟨by rw [hq]; rfl, rfl, fun m hm => (nomatch hm)⟩
  · rename_i hq
    cases h
    refine ⟨by rw [hq]; rfl, rfl, fun m hm => ?_⟩
    cases hm
    exact ⟨none, by rw [hq]; rfl⟩
  · rename_i m cb q hq
    rw [bind_ok] at h
    obtain ⟨s₁, h₁, h⟩ := h
    cases h
    have hs : s'.dQueue = q ∧ s'.memory = s.memory := by
      cases cb with
      | updateMem burst =>
          simp only [callD, updateMem] at h₁
          split at h₁
          · cases h₁
            exact ⟨rfl, rfl⟩
          · cases h₁
      | updatePerm blk param =>
          simp only [callD, updatePerm, Except.ok.injEq] at h₁
          subst h₁
          split <;> exact ⟨rfl, rfl⟩
    refine ⟨by rw [hs.1, hq]; rfl, hs.2, fun m' hm => ?_⟩
    cases hm
    exact ⟨some cb, by rw [hq]; rfl⟩

end Adapter

end Effects

/-! ## 3. Every run -/

/-- **The invariant**: the beats of grants in the queue carry what the memory holds. -/
structure TagsOk (t : Tagged) : Prop where
  length : t.tags.length = t.adapter.dQueue.length
  data : ∀ msg cb addr, ((some msg, cb), addr) ∈ t.adapter.dQueue.zip t.tags →
    msg.opcode = .grantData → msg.data = t.adapter.memory.getD addr 0

variable {cfg : Config} {t t' : Tagged} {a : Action}

theorem tagsOk_start (h : (taggedMachine cfg).init t) : TagsOk t := by
  obtain ⟨⟨memory, ongoingTlc, probe, probeEn, probeAddr, σ, random, hs⟩, htags⟩ := h
  have hq : t.adapter.dQueue = [] := by rw [hs]; rfl
  refine ⟨by rw [htags, hq]; rfl, fun msg cb addr hm => ?_⟩
  rw [hq] at hm
  cases hm

/-- A step that pops nothing: what is queued is not written to, and what is pushed is current. -/
theorem TagsOk.push (h : TagsOk t) (ha : a ≠ .dPop) (hu : Undisturbed cfg t a)
    (hs : t.adapter.act cfg a = .ok t'.adapter) (htags : t'.tags = t.retag cfg t'.adapter a) :
    TagsOk t' := by
  obtain ⟨⟨new, hq, hcarry⟩, hmem⟩ := Adapter.act_effect ha hs
  have hnew : t'.tags = t.tags ++ (List.range new.length).map fun i =>
      t.adapter.grantBase cfg a + i * cfg.datalen := by
    have hlen : t'.adapter.dQueue.length - t.adapter.dQueue.length = new.length := by
      rw [hq, List.length_append]
      omega
    rw [htags, ← hlen]
    cases a with
    | dPop => exact absurd rfl ha
    | _ => rfl
  refine ⟨?_, fun msg cb addr hm hop => ?_⟩
  · rw [hnew, hq, List.length_append, List.length_append, h.length, List.length_map,
      List.length_range]
  · rw [hnew, hq, List.zip_append h.length.symm, List.mem_append] at hm
    rcases hm with hm | hm
    · rw [hmem addr fun hw => ?_]
      · exact h.data msg cb addr hm hop
      · refine hu addr hw _ hm ?_ rfl
        unfold DEntry.isGrantData
        simp [hop]
    · obtain ⟨i, hi⟩ := List.mem_iff_getElem?.mp hm
      obtain ⟨hi, htag⟩ := List.getElem?_zip_eq_some.mp hi
      rw [List.getElem?_map] at htag
      cases hr : (List.range new.length)[i]? with
      | none =>
          rw [hr] at htag
          cases htag
      | some j =>
          have hj : j = i := by
            obtain ⟨_, hr⟩ := List.getElem?_eq_some_iff.mp hr
            rw [← hr, List.getElem_range]
          rw [hr, hj] at htag
          cases htag
          exact hcarry i msg cb hi hop

/-- A step that pops. -/
theorem TagsOk.pop (h : TagsOk t) {msg : Option DMessage}
    (hs : t.adapter.dPop = .ok (msg, t'.adapter)) (htags : t'.tags = t.tags.tail) : TagsOk t' := by
  obtain ⟨hq, hm, _⟩ := Adapter.dPop_tail hs
  refine ⟨by rw [htags, hq, List.length_tail, List.length_tail, h.length], fun msg cb addr he hop => ?_⟩
  rw [hm]
  refine h.data msg cb addr ?_ hop
  rw [hq, htags, ← List.tail_zip] at he
  exact List.mem_of_mem_tail he

/-- A step that pops, as a pop. -/
theorem dPop_of_act {s s' : Adapter} (h : s.act cfg .dPop = .ok s') :
    ∃ msg, s.dPop = .ok (msg, s') := by
  unfold Adapter.act at h
  simp only [bind_ok] at h
  obtain ⟨⟨msg, s₁⟩, hs, h⟩ := h
  cases h
  exact ⟨msg, hs⟩

theorem tagsOk_step (h : TagsOk t) (hu : Undisturbed cfg t a)
    (hs : (taggedMachine cfg).step t a t') : TagsOk t' := by
  obtain ⟨⟨_, hs⟩, htags⟩ := hs
  by_cases ha : a = .dPop
  · subst ha
    obtain ⟨msg, hs⟩ := dPop_of_act hs
    exact h.pop hs htags
  · exact h.push ha hu hs htags

/-- What is driven from such a queue is current. -/
theorem TagsOk.current (h : TagsOk t) (hs : (taggedMachine cfg).step t a t') :
    Current (t, a, t') := by
  intro ha msg hdriven hop
  change a = .dPop at ha
  subst ha
  obtain ⟨msg', hs⟩ := dPop_of_act hs.1.2
  obtain rfl : msg' = some msg := by
    have hd : t.adapter.driven = msg' := by
      unfold Adapter.driven
      rw [hs]
      rfl
    rw [← hd]
    exact hdriven
  obtain ⟨_, hm, hhead⟩ := Adapter.dPop_tail hs
  obtain ⟨cb, hhead⟩ := hhead msg rfl
  obtain ⟨q, hq⟩ := List.head?_eq_some_iff.mp hhead
  obtain ⟨addr, tags, htags⟩ : ∃ addr tags, t.tags = addr :: tags := by
    refine List.exists_cons_of_length_eq_add_one (n := q.length) ?_
    rw [h.length, hq, List.length_cons]
  refine ⟨addr, by rw [htags]; rfl, ?_⟩
  show msg.data = t'.adapter.memory.getD addr 0
  rw [hm]
  refine h.data msg cb addr ?_ hop
  rw [hq, htags]
  exact List.mem_cons_self

/-- **Granted data is current in every undisturbed run**: if no step writes a word that a beat of a
    grant in the queue carries, every GrantData beat is driven with what the memory then holds at its
    address. -/
theorem current_of_undisturbed {tr : List (Tagged × Action × Tagged)}
    (h : (taggedMachine cfg).Trace tr t) (hu : ∀ x ∈ tr, Undisturbed cfg x.1 x.2.1) :
    ∀ x ∈ tr, Current x := by
  intro x hx
  obtain ⟨hok, hs⟩ := h.steps (fun _ => tagsOk_start) (fun _ _ _ => tagsOk_step) hu x hx
  exact hok.current hs

/-! ### Runs -/

namespace StaleDemo

def config : Config := { protocol := .tlC, lgDatalen := 3, bDatalen := 8 }

def start : Tagged :=
  ⟨.start config (Dict.ofList [(64, 7)]) .empty false true 0 .insertion fun _ => 0, []⟩

/-- The client acquires block 64. -/
def acquire : ABeat :=
  { opcode := .acquireBlock, param := NtoT, size := 6, source := 1, address := 64, mask := 255
    data := 0 }

/-- Another source writes the first word of the block. -/
def put : ABeat :=
  { opcode := .putFullData, param := 0, size := 3, source := 2, address := 64, mask := 255, data := 5 }

/-- The word is written before the grant is queued. -/
def before : List Action := [.a put, .a acquire, .dPop]

/-- The word is written while the grant is in the queue. -/
def between : List Action := [.a acquire, .a put, .dPop]

def turn (t : Tagged) (a : Action) : Option Tagged :=
  (turn? config t.adapter a).map fun s' => ⟨s', t.retag config s' a⟩

theorem exec_trace (actions : List Action) :
    (taggedMachine config).Trace (exec turn start actions).1 (exec turn start actions).2 := by
  have hstart : (taggedMachine config).Trace [] start :=
    .start _ ⟨⟨_, _, _, _, _, _, _, rfl⟩, rfl⟩
  refine Machine.exec_trace (fun t a t' h => ?_) hstart actions
  unfold turn at h
  obtain ⟨s', hs, rfl⟩ := Option.map_eq_some_iff.mp h
  exact ⟨step_of_turn? hs, rfl⟩

end StaleDemo

theorem current_before :
    (exec StaleDemo.turn StaleDemo.start StaleDemo.before).1.length = StaleDemo.before.length ∧
      ∀ x ∈ (exec StaleDemo.turn StaleDemo.start StaleDemo.before).1, Current x :=
  ⟨by decide +kernel,
    current_of_undisturbed (StaleDemo.exec_trace StaleDemo.before) (by decide +kernel)⟩

/-- The client receives 7, which is no longer in the memory. -/
theorem not_current_between : ∃ tr t, (taggedMachine StaleDemo.config).Trace tr t ∧
    ¬ ∀ x ∈ tr, Current x := by
  refine ⟨_, _, StaleDemo.exec_trace StaleDemo.between, ?_⟩
  decide +kernel

end Difuzz.TileLink
