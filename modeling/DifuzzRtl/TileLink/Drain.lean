/-
  File:      DifuzzRtl/TileLink/Drain.lean
  Subject:   The callbacks of the probes at the end of a run (`data_retriever`, `probe_blocks`,
             `probe_blocks_rec`), in the adapter.

  The drain asks for one block; the callback of the answer asks for the next one, and the last one
  clears `drive`. In between come the requests of others, and releases of the client.

  * `Callback.chain`, `Retrieve.chain` -- the callbacks of the drain, with the blocks to come.
  * `Aside` -- a turn that has nothing to do with the drain (`act_aside`).
  * `PermTable` -- a block has one entry, TRUNK or TIP.
  * `act_flags` -- `drive` is cleared by the answer to the last probe of the drain, and by no other
    step than this and the call of `probe_blocks`.
  * `NoChain`, `Orderly` -- before that call there is no drain, and `drive` is set.
-/
import DifuzzRtl.TileLink.Deferred
import DifuzzRtl.TileLink.Moves

namespace Difuzz.TileLink

/-! ## 1. The callbacks of the drain -/

/-- The blocks that are still to be probed. -/
def Callback.chain : Callback → Option (List Nat)
  | .probeBlocksRec probeAddrs => some probeAddrs
  | _ => none

/-- The block that is asked for, and those to come. -/
def Retrieve.chain (r : Retrieve) : Option (Nat × List Nat) :=
  r.callback.chain.map fun l => (r.addr, l)

theorem Callback.chain_eq_some {c : Callback} {l : List Nat} (h : c.chain = some l) :
    c = .probeBlocksRec l := by
  cases c <;> cases h
  rfl

theorem Retrieve.chain_eq_some {r : Retrieve} {x : Nat × List Nat} (h : r.chain = some x) :
    r.callback = .probeBlocksRec x.2 ∧ r.addr = x.1 := by
  unfold Retrieve.chain at h
  obtain ⟨l, hl, rfl⟩ := Option.map_eq_some_iff.mp h
  exact ⟨Callback.chain_eq_some hl, rfl⟩

theorem Callback.requests_of_chain {c : Callback} (h : c.chain = none) : c.requests = [] := by
  cases c <;> first | rfl | cases h

/-- A block has one entry, and it is TRUNK or TIP. -/
structure PermTable (d : Dict Nat Perm) : Prop where
  nodup : d.keys.Nodup
  two : ∀ a, d.getD a .tip = .tip ∨ d.getD a .tip = .trunk

theorem PermTable.set {d : Dict Nat Perm} (h : PermTable d) {a : Nat} {p : Perm}
    (hp : p = .tip ∨ p = .trunk) : PermTable (d.set a p) := by
  refine ⟨?_, fun x => ?_⟩
  · unfold Dict.keys Dict.set
    rw [Dict.keys_setEntries]
    split
    · exact h.nodup
    · rename_i hn
      rw [← List.concat_eq_append]
      exact h.nodup.concat hn
  · rw [Dict.getD_set]
    split
    · exact hp
    · exact h.two x

/-- **The turn has nothing to do with the drain.** -/
structure Aside (s s' : Adapter) : Prop where
  chains : (s'.deferred.filterMap Callback.chain).Perm (s.deferred.filterMap Callback.chain)
  drive : s'.drive = s.drive
  retriever : s'.retriever = s.retriever
  blockPerm : PermTable s.blockPerm → PermTable s'.blockPerm

section Turns

variable {cfg : Config} {s s₁ s' : Adapter}

theorem Aside.refl (s : Adapter) : Aside s s := ⟨.refl _, rfl, rfl, id⟩

theorem Aside.trans (h : Aside s s₁) (h' : Aside s₁ s') : Aside s s' :=
  ⟨h'.chains.trans h.chains, h'.drive.trans h.drive, h'.retriever.trans h.retriever,
    fun ht => h'.blockPerm (h.blockPerm ht)⟩

/-- What is deferred stays, and so do the flags and the table. -/
theorem Aside.of_eq (hd : s'.deferred = s.deferred) (hdrive : s'.drive = s.drive)
    (hretr : s'.retriever = s.retriever) (hp : s'.blockPerm = s.blockPerm) : Aside s s' :=
  ⟨by rw [hd], hdrive, hretr, fun h => hp ▸ h⟩

namespace Adapter

theorem retrieveBlockCb_flags {r : Retrieve} (h : s.retrieveBlockCb r = .ok s') :
    s'.drive = s.drive ∧ s'.retriever = s.retriever := by
  unfold retrieveBlockCb at h
  simp only [bind_ok] at h
  obtain ⟨⟨src, bSrcs, s₁⟩, h₁, bCallback, _, h⟩ := h
  obtain ⟨random, rfl⟩ := choice_spec h₁
  cases h
  exact ⟨rfl, rfl⟩

theorem retrieveBlock_flags {c : Callback} {param size addr mask : Nat}
    (h : s.retrieveBlock c param size addr mask = .ok s') :
    s'.drive = s.drive ∧ s'.retriever = s.retriever := by
  unfold retrieveBlock at h
  simp only at h
  split at h
  · cases h
    exact ⟨rfl, rfl⟩
  · exact retrieveBlockCb_flags h

theorem retrieveBlock_aside {c : Callback} {param size addr mask : Nat} (hc : c.chain = none)
    (h : s.retrieveBlock c param size addr mask = .ok s') : Aside s s' := by
  obtain ⟨hkeeps, hd⟩ := retrieveBlock_spec h
  obtain ⟨hdrive, hretr⟩ := retrieveBlock_flags h
  refine ⟨?_, hdrive, hretr, fun ht => hkeeps.blockPerm ▸ ht⟩
  have hperm := hd.filterMap Callback.chain
  rwa [List.filterMap_cons_none hc] at hperm

theorem putData_aside {b : ABeat} (h : s.putData cfg b = .ok s') : Aside s s' := by
  unfold putData at h
  simp only at h
  split at h
  · rw [bind_ok] at h
    obtain ⟨s₁, h₁, h⟩ := h
    have hnew : Aside s s₁ := by
      unfold newBurst at h₁
      split at h₁
      · have hs := retrieveBlock_aside rfl h₁
        exact ⟨hs.chains, hs.drive, hs.retriever, hs.blockPerm⟩
      · cases h₁
        exact .refl s
    unfold collect at h
    split at h
    · cases h
      exact hnew.trans (.of_eq rfl rfl rfl rfl)
    · cases h
  · split at h <;> cases h <;> exact .of_eq rfl rfl rfl rfl

theorem atomicData_aside {b : ABeat} {title : String} {op : Nat → Nat → Option Int}
    {callback : Nat → Nat → Nat → Nat → Nat → Nat → Nat → Callback}
    (hc : ∀ x y z u v w t, (callback x y z u v w t).chain = none)
    (h : s.atomicData cfg b title op callback = .ok s') : Aside s s' := by
  unfold atomicData at h
  simp only [bind_ok] at h
  obtain ⟨_, _, offset, _, h⟩ := h
  split at h
  · exact retrieveBlock_aside (hc ..) h
  · unfold atomicOp at h
    simp only at h
    split at h
    · cases h
    · cases h
      exact .of_eq rfl rfl rfl rfl

theorem aOpcode_aside {b : ABeat} (h : s.aOpcode cfg b = .ok s') : Aside s s' := by
  unfold aOpcode at h
  split at h
  · unfold getData at h
    simp only at h
    split at h
    · exact retrieveBlock_aside rfl h
    · cases h
      exact .of_eq rfl rfl rfl rfl
  · exact putData_aside h
  · exact putData_aside h
  · split at h
    · exact atomicData_aside (fun _ _ _ _ _ _ _ => rfl) h
    · cases h
      exact .refl s
  · split at h
    · exact atomicData_aside (fun _ _ _ _ _ _ _ => rfl) h
    · cases h
      exact .refl s
  · split at h
    · cases h
      exact .of_eq rfl rfl rfl rfl
    · cases h
      exact .refl s
  · split at h
    · unfold acquireBlock at h
      rw [bind_ok] at h
      obtain ⟨⟨sink, dSinks, s₁⟩, h₁, h⟩ := h
      obtain ⟨random, rfl⟩ := choice_spec h₁
      simp only at h
      split at h
      · have hs := retrieveBlock_aside rfl h
        exact ⟨hs.chains, hs.drive, hs.retriever, hs.blockPerm⟩
      · cases h
        exact .of_eq rfl rfl rfl rfl
    · cases h
      exact .refl s
  · split at h
    · unfold acquirePerm at h
      rw [bind_ok] at h
      obtain ⟨⟨sink, dSinks, s₁⟩, h₁, h⟩ := h
      obtain ⟨random, rfl⟩ := choice_spec h₁
      simp only at h
      split at h
      · cases h
      · cases h
        exact .of_eq rfl rfl rfl rfl
    · cases h
      exact .refl s

theorem touch_aside (addr : Nat) : Aside s (s.touch addr) :=
  ⟨.refl _, rfl, rfl, fun h => h.set (h.two addr)⟩

theorem hostInterface_aside (h : s.hostInterface cfg = .ok s') : Aside s s' := by
  unfold hostInterface at h
  simp only at h
  split at h
  · split at h
    · rw [bind_ok] at h
      obtain ⟨s₁, h₁, h⟩ := h
      cases h
      exact (retrieveBlock_aside rfl h₁).trans (.of_eq rfl rfl rfl rfl)
    · cases h
      exact .refl s
  · cases h
    exact .refl s

theorem ePortMonitor_aside {sink : Nat} (h : s.ePortMonitor sink = .ok s') : Aside s s' := by
  unfold ePortMonitor at h
  rw [bind_ok] at h
  obtain ⟨⟨dSinks, _⟩, _, h⟩ := h
  simp only at h
  split at h
  · cases h
    exact .of_eq rfl rfl rfl rfl
  · cases h

theorem dPop_aside {msg : Option DMessage} (h : s.dPop = .ok (msg, s')) : Aside s s' := by
  unfold dPop at h
  split at h
  · cases h
    exact .refl s
  · cases h
    exact .of_eq rfl rfl rfl rfl
  · cases h
    exact .of_eq rfl rfl rfl rfl
  · rw [bind_ok] at h
    obtain ⟨s₁, h₁, h⟩ := h
    cases h
    unfold callD at h₁
    split at h₁
    · unfold updateMem at h₁
      split at h₁
      · cases h₁
        exact .of_eq rfl rfl rfl rfl
      · cases h₁
    · cases h₁
      unfold updatePerm
      split
      · exact ⟨.refl _, rfl, rfl, fun ht => ht.set (.inr rfl)⟩
      · exact .of_eq rfl rfl rfl rfl

/-- **Of the turns only the answers to probes and `data_retriever` have to do with the drain.** -/
theorem act_aside {a : Action} (hc : ∀ b, a ≠ .c b) (hd : a ≠ .dataRetriever)
    (h : s.act cfg a = .ok s') : Aside s s' := by
  cases a with
  | a b => exact (touch_aside _).trans (aOpcode_aside (aPortMonitor_ok h))
  | c b => exact absurd rfl (hc b)
  | e sink => exact ePortMonitor_aside h
  | dPop =>
      obtain ⟨msg, hs⟩ := dPop_of_act h
      exact dPop_aside hs
  | bPop =>
      cases h
      unfold Adapter.bPop
      split <;> exact .of_eq rfl rfl rfl rfl
  | probeBlock addr =>
      cases h
      exact .of_eq rfl rfl rfl rfl
  | hostInterface => exact hostInterface_aside h
  | stop =>
      cases h
      exact .of_eq rfl rfl rfl rfl
  | dataRetriever => exact absurd rfl hd

/-! ## 2. The answers -/

theorem call_flags {c : Callback} (h : s.call cfg c = .ok s') :
    s'.retriever = s.retriever ∧ s'.blockPerm = s.blockPerm ∧
    s'.drive = (if c = .probeBlocksRec [] then false else s.drive) := by
  cases c with
  | probeBlocksRec addrs =>
      cases addrs with
      | nil =>
          cases h
          exact ⟨rfl, rfl, rfl⟩
      | cons addr addrs =>
          obtain ⟨hdrive, hretr⟩ := retrieveBlock_flags h
          exact ⟨hretr, (retrieveBlock_spec h).1.blockPerm, hdrive⟩
  | arithmeticAck =>
      obtain ⟨e, he⟩ := Deferred.atomicAckCb_raises s _
      cases he.symm.trans h
  | logicalAck =>
      obtain ⟨e, he⟩ := Deferred.atomicAckCb_raises s _
      cases he.symm.trans h
  | grant => cases h
  | _ =>
      cases h
      exact ⟨rfl, rfl, rfl⟩

theorem bSrcsRelease_flags {src : Nat} (h : s.bSrcsRelease src = .ok s') :
    s'.retriever = s.retriever ∧ s'.blockPerm = s.blockPerm ∧ s'.drive = s.drive := by
  unfold bSrcsRelease at h
  split at h
  · obtain ⟨hdrive, hretr⟩ := retrieveBlockCb_flags h
    exact ⟨hretr, (retrieveBlockCb_spec h).1.blockPerm, hdrive⟩
  · cases h
    exact ⟨rfl, rfl, rfl⟩
  · cases h

/-- **The answer to a probe clears `drive` exactly if no block is left to the drain.** -/
theorem answerProbe_flags (hok : ServerOk [0] s none) {b : CBeat} (h : s.answerProbe cfg b = .ok s') :
    s'.retriever = s.retriever ∧ s'.blockPerm = s.blockPerm ∧
    s'.drive = (if s.pending 0 = some (.probeBlocksRec []) then false else s.drive) := by
  obtain ⟨c, hc⟩ := answerProbe_pending hok h
  have hp : s.pending 0 = some c := by
    rw [← eq_zero_of_get hok hc]
    exact pending_of_get hc
  unfold answerProbe at h
  rw [bind_ok] at h
  obtain ⟨s₁, h₁, h⟩ := h
  rw [bCallbackCall_eq hc] at h₁
  obtain ⟨hretr₁, hperm₁, hdrive₁⟩ := call_flags h₁
  obtain ⟨hretr, hperm, hdrive⟩ := bSrcsRelease_flags h
  refine ⟨hretr.trans hretr₁, hperm.trans hperm₁, ?_⟩
  simp only [hdrive, hdrive₁, hp, Option.some.injEq]
  rfl

theorem returnBlock_flags (b : CBeat) :
    (s.returnBlock cfg b).retriever = s.retriever ∧ (s.returnBlock cfg b).drive = s.drive ∧
    (PermTable s.blockPerm → PermTable (s.returnBlock cfg b).blockPerm) := by
  unfold returnBlock
  split
  · exact ⟨rfl, rfl, fun h => h.set (.inl rfl)⟩
  · exact ⟨rfl, rfl, id⟩

/-- **A beat on channel C** clears `drive` exactly if it ends the last answer to the drain. -/
theorem cOpcode_flags (hok : ServerOk [0] s none) {b : CBeat} (h : s.cOpcode cfg b = .ok s') :
    s'.retriever = s.retriever ∧ (PermTable s.blockPerm → PermTable s'.blockPerm) ∧
    s'.drive = (if s.finishes cfg b = true ∧ s.pending 0 = some (.probeBlocksRec []) then false
      else s.drive) := by
  have hret := fun s : Adapter => @returnBlock_flags cfg s b
  -- the answer comes behind a change of the memory and of the permission
  have hanswer : ∀ s₀ s₁ : Adapter, SameService s s₀ → s₀.retriever = s.retriever →
      s₀.drive = s.drive → (PermTable s.blockPerm → PermTable s₀.blockPerm) →
      s₀.answerProbe cfg b = .ok s₁ → s₁.retriever = s.retriever ∧
      (PermTable s.blockPerm → PermTable s₁.blockPerm) ∧
      s₁.drive = (if s.pending 0 = some (.probeBlocksRec []) then false else s.drive) := by
    intro s₀ s₁ hsame hretr hdrive hperm hans
    obtain ⟨hretr₁, hperm₁, hdrive₁⟩ :=
      answerProbe_flags (serverOk_congr hok hsame.bSrcs hsame.bCallback) hans
    refine ⟨hretr₁.trans hretr, fun ht => hperm₁ ▸ hperm ht, ?_⟩
    rw [hdrive₁, hsame.pending, hdrive]
  unfold finishes
  unfold cOpcode at h
  split at h
  · cases h
  · cases h
  · cases h
  · rename_i hop
    cases h
    rw [hop]
    exact ⟨rfl, id, by simp⟩
  · rename_i hop
    obtain ⟨hr, hd, hp⟩ := hret s
    have hs := hanswer _ _ (returnBlock_service b).1 hr hd hp h
    rw [hop]
    simpa using hs
  · rename_i hop
    rw [hop]
    unfold dataBeat at h
    simp only at h
    split at h
    · rename_i hlast
      rw [bind_ok] at h
      obtain ⟨s₁, h₁, h⟩ := h
      cases h
      obtain ⟨hr, hd, hp⟩ := hret { s with memory := s.memory.set (cfg.addrAligned b.address +
        s.cOngoings.getD b.source 0 * cfg.datalen) b.data }
      have hs := hanswer _ s₁ ((memory_service _).trans (returnBlock_service b).1) hr hd hp h₁
      simpa [hlast] using hs
    · rename_i hmore
      cases h
      exact ⟨rfl, id, by simp [hmore]⟩
  · rename_i hop
    cases h
    rw [hop]
    obtain ⟨hr, hd, hp⟩ := hret s
    refine ⟨hr, hp, ?_⟩
    rw [if_neg fun hn => Bool.false_ne_true hn.1]
    exact hd
  · rename_i hop
    rw [hop]
    unfold dataBeat at h
    simp only at h
    split at h
    · rw [bind_ok] at h
      obtain ⟨s₁, h₁, h⟩ := h
      cases h₁
      cases h
      obtain ⟨hr, hd, hp⟩ := hret { s with memory := s.memory.set (cfg.addrAligned b.address +
        s.cOngoings.getD b.source 0 * cfg.datalen) b.data }
      exact ⟨hr, hp, hd.trans (if_neg fun hn => Bool.false_ne_true hn.1).symm⟩
    · cases h
      exact ⟨rfl, id, by simp⟩

/-- A beat with data writes its word. -/
theorem cOpcode_word {b : CBeat} (hb : Client.hasData b.opcode = true)
    (h : s.cOpcode cfg b = .ok s') :
    s'.memory.getD (cfg.addrAligned b.address + s.cOngoings.getD b.source 0 * cfg.datalen) 0 =
      b.data := by
  have hbeat : ∀ last : Adapter → Except Error Adapter,
      (∀ s₁ s₂, last s₁ = .ok s₂ → ∀ x, s₂.memory.getD x 0 = s₁.memory.getD x 0) →
      s.dataBeat cfg b last = .ok s' →
      s'.memory.getD (cfg.addrAligned b.address + s.cOngoings.getD b.source 0 * cfg.datalen) 0 =
        b.data := by
    intro last hlast h
    unfold dataBeat at h
    simp only at h
    split at h
    · rw [bind_ok] at h
      obtain ⟨s₁, h₁, h⟩ := h
      cases h
      show s₁.memory.getD _ 0 = _
      rw [hlast _ _ h₁, (returnBlock_still cfg b).memory, Dict.getD_set, if_pos rfl]
    · cases h
      show (s.memory.set _ _).getD _ 0 = _
      rw [Dict.getD_set, if_pos rfl]
  unfold cOpcode at h
  split at h
  · cases h
  · cases h
  · cases h
  · rename_i hop
    rw [hop] at hb
    cases hb
  · rename_i hop
    rw [hop] at hb
    cases hb
  · exact hbeat _ (fun s₁ s₂ hs x => (answerProbe_effect (w := none) hs).memory x (by simp)) h
  · rename_i hop
    rw [hop] at hb
    cases hb
  · refine hbeat _ (fun s₁ s₂ hs x => ?_) h
    cases hs
    rfl

end Adapter

/-- **What a turn does to the flags and the table**: `drive` is cleared with the end of the drain, or
    by `data_retriever` when there is nothing to probe. -/
theorem act_flags (hok : ServerOk [0] s none) {a : Action} (ha : a ≠ .dataRetriever)
    (h : s.act cfg a = .ok s') :
    s'.retriever = s.retriever ∧ (PermTable s.blockPerm → PermTable s'.blockPerm) ∧
    s'.drive = (if s.ended cfg a = 1 ∧ s.pending 0 = some (.probeBlocksRec []) then false
      else s.drive) := by
  by_cases hc : ∃ b, a = .c b
  · obtain ⟨b, rfl⟩ := hc
    obtain ⟨hretr, hperm, hdrive⟩ := Adapter.cOpcode_flags hok (Adapter.cPortMonitor_ok h)
    refine ⟨hretr, hperm, hdrive.trans (if_congr (and_congr_left fun _ => ?_) rfl rfl)⟩
    unfold Adapter.ended
    by_cases hf : s.finishes cfg b = true
    · simp [hf]
    · simp [hf]
  · have hc' : ∀ b, a ≠ .c b := fun b hb => hc ⟨b, hb⟩
    have hs := Adapter.act_aside hc' ha h
    refine ⟨hs.retriever, hs.blockPerm, ?_⟩
    have hended : s.ended cfg a = 0 := by
      cases a with
      | c b => exact absurd rfl (hc' b)
      | _ => rfl
    rw [if_neg fun hn => by rw [hended] at hn; cases hn.1]
    exact hs.drive

theorem dataRetriever_done (h : s.retriever = false) (hs : s.act cfg .dataRetriever = .ok s') :
    s' = s := by
  unfold Adapter.act Adapter.dataRetriever at hs
  rw [if_neg fun hn => by rw [h] at hn; cases hn.2] at hs
  cases hs
  rfl

/-! ## 3. The line -/

/-- The requests of the drain that wait. -/
def Adapter.waiting (s : Adapter) : List (Nat × List Nat) := s.bSrcs.eventQueue.filterMap Retrieve.chain

theorem Retrieve.chain_eq_none {r : Retrieve} : r.chain = none ↔ r.callback.chain = none := by
  unfold Retrieve.chain
  exact Option.map_eq_none_iff

theorem waiting_append (s : Adapter) {s' : Adapter} {r : Retrieve} (hr : r.callback.chain = none)
    (hq : s'.bSrcs.eventQueue = s.bSrcs.eventQueue ++ [r]) : s'.waiting = s.waiting := by
  unfold Adapter.waiting
  rw [hq, List.filterMap_append, List.filterMap_cons_none (Retrieve.chain_eq_none.mpr hr),
    List.filterMap_nil, List.append_nil]

/-- A request of another is not one of the drain. -/
theorem asked_chain (hok : ServerOk [0] s none) (hok' : ServerOk [0] s' none) (h : Aside s s')
    {r : Retrieve} (hs : Asked s s' r) : r.callback.chain = none := by
  have hperm := h.chains
  rw [deferred_single hok.tables, deferred_single hok'.tables] at hperm
  have hlen := hperm.length_eq
  cases hs with
  | sent hp hq hp' hq' _ =>
      rw [hp, hq, hp', hq'] at hlen
      cases hc : r.callback.chain with
      | none => rfl
      | some l => simp [hc] at hlen
  | waits _ hp' hq' _ =>
      rw [hp', hq'] at hlen
      cases hc : r.callback.chain with
      | none => rfl
      | some l => simp [hc] at hlen

/-- No callback of the drain is under way. -/
structure NoChain (s : Adapter) : Prop where
  pending : (s.pending 0).bind Callback.chain = none
  waiting : s.waiting = []

/-- When the next of a line is served that has no request of the drain. -/
theorem noChain_next {line : List Retrieve} (hline : line.filterMap Retrieve.chain = [])
    (hp : s.pending 0 = line.head?.map (·.callback)) (hq : s.bSrcs.eventQueue = line.tail) :
    NoChain s := by
  have hnone := List.filterMap_eq_nil_iff.mp hline
  refine ⟨?_, List.filterMap_eq_nil_iff.mpr fun r hr => ?_⟩
  · rw [hp]
    cases line with
    | nil => rfl
    | cons r rest => exact Retrieve.chain_eq_none.mp (hnone r List.mem_cons_self)
  · rw [hq] at hr
    exact hnone r (List.mem_of_mem_tail hr)

/-- What is asked for before the drain, and answered, leaves it so. -/
theorem NoChain.act (h : NoChain s) (hok : ServerOk [0] s none) (hok' : ServerOk [0] s' none)
    {a : Action} (ha : a ≠ .dataRetriever) (hs : s.act cfg a = .ok s') : NoChain s' := by
  cases act_line hok hs with
  | request r hc hr =>
      have hchain := asked_chain hok hok' (Adapter.act_aside hc ha hs) hr
      cases hr with
      | sent _ _ hp' hq' _ =>
          refine ⟨by rw [hp']; exact hchain, ?_⟩
          unfold Adapter.waiting
          rw [hq']
          rfl
      | waits _ hp' hq' _ => exact ⟨hp' ▸ h.pending, (waiting_append s hchain hq').trans h.waiting⟩
  | answered b c more _ _ _ hp hc _ hp' hq' _ =>
      have hnone : c.chain = none := by
        have hpend := h.pending
        rwa [hp] at hpend
      obtain rfl : more = [] := by
        rw [Callback.requests_of_chain hnone] at hc
        exact List.map_eq_nil_iff.mp hc
      rw [List.append_nil] at hp' hq'
      exact noChain_next h.waiting hp' hq'
  | quiet _ hp' hq' _ =>
      refine ⟨hp' ▸ h.pending, ?_⟩
      unfold Adapter.waiting
      rw [hq']
      exact h.waiting

/-- The blocks that `probe_blocks` collects. -/
def Adapter.lent (s : Adapter) : List Nat := s.blockPerm.keys.filter fun addr => s.perm addr ≠ .tip

theorem dataRetriever_call (h : s.retrieve = true ∧ s.retriever = true) :
    s.act cfg .dataRetriever = { s with retriever := false }.probeBlocksRec cfg s.lent := if_pos h

/-- **The flags and the table.** Before `data_retriever` has called `probe_blocks`, `drive` is set and
    there is no callback of the drain. -/
structure Orderly (s : Adapter) : Prop where
  table : PermTable s.blockPerm
  drive : s.retriever = true → s.drive = true
  chains : s.retriever = true → NoChain s

theorem Orderly.act (h : Orderly s) (hok : ServerOk [0] s none) (hok' : ServerOk [0] s' none)
    {a : Action} (hs : s.act cfg a = .ok s') : Orderly s' := by
  by_cases ha : a = .dataRetriever
  · subst ha
    by_cases hcall : s.retrieve = true ∧ s.retriever = true
    · rw [dataRetriever_call hcall] at hs
      have hkeeps : s'.blockPerm = s.blockPerm ∧ s'.retriever = false := by
        cases hl : s.lent with
        | nil =>
            rw [hl] at hs
            cases hs
            exact ⟨rfl, rfl⟩
        | cons addr addrs =>
            rw [hl] at hs
            exact ⟨(Adapter.retrieveBlock_spec hs).1.blockPerm, (Adapter.retrieveBlock_flags hs).2⟩
      have hno : ¬ s'.retriever = true := by
        rw [hkeeps.2]
        exact Bool.false_ne_true
      exact ⟨hkeeps.1 ▸ h.table, fun ht => absurd ht hno, fun ht => absurd ht hno⟩
    · unfold Adapter.act Adapter.dataRetriever at hs
      rw [if_neg hcall] at hs
      cases hs
      exact h
  obtain ⟨hretr, htable, hdrive⟩ := act_flags hok ha hs
  refine ⟨htable h.table, fun ht => ?_, fun ht => (h.chains (hretr ▸ ht)).act hok hok' ha hs⟩
  rw [hretr] at ht
  rw [hdrive, if_neg fun hn => ?_]
  · exact h.drive ht
  · have hpend := (h.chains ht).pending
    rw [hn.2] at hpend
    cases hpend

end Turns

theorem started_orderly {cfg : Config} {s : Adapter} (h : Adapter.Starts cfg s) : Orderly s := by
  obtain ⟨memory, ongoingTlc, probe, probeEn, probeAddr, σ, random, rfl⟩ := h
  exact ⟨⟨(Dict.ofList_keys _).1, fun a =>
    .inl (Adapter.perm_start cfg memory ongoingTlc probe probeEn probeAddr σ random a)⟩,
    fun _ => rfl, fun _ => ⟨rfl, rfl⟩⟩

theorem reachable_orderly {cfg : Config} {st : System} (h : Reachable cfg st) : Orderly st.adapter := by
  induction h with
  | start st h =>
      obtain ⟨memory, ongoingTlc, probe, probeEn, probeAddr, σ, random, rfl⟩ := h
      exact started_orderly ⟨memory, ongoingTlc, probe, probeEn, probeAddr, σ, random, rfl⟩
  | step st st' h hs ih =>
      obtain ⟨m, hm⟩ := exists_moved hs
      have hok' := reachable_server (.step st st' h hs)
      cases hm with
      | act a s' _ _ _ hact => exact ih.act (reachable_server h) hok' hact
      | dFire => exact ih
      | bFire => exact ih

end Difuzz.TileLink
