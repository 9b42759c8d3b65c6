/-
  File:      DifuzzRtl/TileLink/Deferred.lean
  Subject:   Atomic operations and Acquires of a block that the client owns.

  Such a request asks for a probe, and what is left of it is a callback that runs with the last
  beat of the answer. Requests of other beats, of the host and of the drain may come before it and
  after it; the probes have one source, so their callbacks run in the order of the requests.

  * `Deferral` -- a run with such a request, up to the last beat of the answer to its probe.
  * `act_deferred`, `Deferral.callback` -- what is deferred is a queue; at the end of a deferral the
    callback of the request is the one in the table.
  * `SinkTurn` -- what a step does to the free sinks and the grants that are out.
  * `AsDirect`, `Settles` -- the result is that of a request to a block of the adapter.
  * `atomic_not_asDirect`, `settles_iff` -- no atomic operation has it, and of the Acquires those of a
    block with its data, when a sink is free.
-/
import DifuzzRtl.TileLink.Races
import DifuzzRtl.TileLink.Stale

namespace Difuzz.TileLink.Deferred

/-! ## 1. The callback that runs -/

/-- A step with the last beat of the answer to a probe. -/
def finishes (cfg : Config) (x : Adapter × Action × Adapter) : Bool :=
  match x.2.1 with
  | .c b => x.1.finishes cfg b
  | _ => false

/-- The probes that are answered on the way. -/
def answers (cfg : Config) (tr : List (Adapter × Action × Adapter)) : Nat :=
  tr.countP (finishes cfg)

section Line

variable {cfg : Config} {s s' : Adapter} {a : Action}

/-- Of the callbacks that are deferred, the first is in the table. -/
theorem head_deferred {i : Nat} {c : Callback} {rest : List Callback} (h : ServerOk [i] s none)
    (hd : s.deferred = c :: rest) : s.bCallback.cMap.get? i = some (some c) := by
  rw [deferred_single h.tables] at hd
  have hi : i ∈ s.bCallback.cMap.keys := by
    rw [h.keys]
    exact List.mem_singleton_self i
  obtain ⟨x, hx⟩ := Dict.get?_isSome_iff.mpr hi
  have hp : s.pending i = x := by
    unfold Adapter.pending Dict.getD
    rw [hx]
    rfl
  rw [hp] at hd
  cases x with
  | some c' =>
      obtain rfl : c' = c := (List.cons.inj hd).1
      exact hx
  | none =>
      -- a request that waits has no source, but this one is free
      have hne : s.bSrcs.eventQueue ≠ [] := by
        intro he
        rw [he] at hd
        cases hd
      have hfree := (h.free i).mpr ⟨hx, fun e => (nomatch e)⟩
      rw [h.waits hne] at hfree
      cases hfree

/-- **A step takes at most the first of what is deferred, and puts its own behind**: it takes the
    first exactly if it ends the answer to a probe. -/
theorem act_deferred (h : ServerOk [0] s none) (hs : s.act cfg a = .ok s') :
    ∃ more, if finishes cfg (s, a, s') = true
      then ∃ c rest, s.deferred = c :: rest ∧ s'.deferred = rest ++ more
      else s'.deferred = s.deferred ++ more := by
  cases Adapter.act_turn hs with
  | request addr ha hr =>
      obtain ⟨s₀, s₁, c, param, size, mask, h₀, hreq, h₁, _⟩ := hr.steps
      have hnot : finishes cfg (s, a, s') = false := by
        cases a with
        | c b => cases ha
        | _ => rfl
      have hok₀ := Adapter.serverOk_congr h h₀.bSrcs h₀.bCallback
      obtain ⟨s₂, hs₂, hrequested, hok₂⟩ :=
        Adapter.retrieveBlock_requested hok₀ c param size addr mask
      obtain rfl : s₁ = s₂ := Except.ok.inj (hreq.symm.trans hs₂)
      refine ⟨[c], ?_⟩
      rw [hnot]
      have hd := requested_deferred hok₀ hok₂ hrequested
      unfold Adapter.deferred at hd ⊢
      rw [h₁.bSrcs, h₁.bCallback, ← h₀.bSrcs, ← h₀.bCallback]
      exact hd
  | answer b ha hb hr =>
      subst ha
      obtain ⟨s₀, s₁, h₀, _, hans, h₁, _⟩ := hr.steps
      have hok₀ := Adapter.serverOk_congr h h₀.bSrcs h₀.bCallback
      obtain ⟨c, hc⟩ := Adapter.answerProbe_pending hok₀ hans
      obtain ⟨hbefore, hafter⟩ := answered_deferred hok₀ hc hans
      have hfin : finishes cfg (s, .c b, s') = true := hb
      refine ⟨c.requests, ?_⟩
      rw [if_pos hfin]
      refine ⟨c, (s₀.taken b.source).deferred, ?_, ?_⟩
      · rw [← hbefore]
        unfold Adapter.deferred
        rw [h₀.bSrcs, h₀.bCallback]
      · rw [← hafter]
        unfold Adapter.deferred
        rw [h₁.bSrcs, h₁.bCallback]
  | quiet ha hb hsrcs hcall _ =>
      have hnot : finishes cfg (s, a, s') = false := by
        cases a with
        | c b => exact hb b rfl
        | _ => rfl
      refine ⟨[], ?_⟩
      rw [hnot, List.append_nil]
      show s'.deferred = s.deferred
      unfold Adapter.deferred
      rw [hsrcs, hcall]

/-- The states of a run serve probes so. -/
theorem serverOk_of_trace {tr : List (Adapter × Action × Adapter)}
    (h : (machine cfg).Trace tr s) : ServerOk [0] s none := by
  obtain ⟨log, hlog⟩ := h.inv (P := fun _ _ => True) (I := fun s => ∃ log, Probing cfg [0] s log)
    (fun _ => starts_probing) (fun _ _ _ hp _ => step_probing hp) fun _ _ => trivial
  exact (hlog.logOk (List.nodup_singleton 0)).server

/-- **The place in the line**: behind the callbacks that were deferred before, and each answer takes
    one of these away. -/
theorem trace_deferred {tr₁ tr₂ : List (Adapter × Action × Adapter)} {s₁ s₂ : Adapter}
    {before : List Callback} {c : Callback}
    (h : (machine cfg).Trace (tr₁ ++ (s, a, s₁) :: tr₂) s₂) (hd : s₁.deferred = before ++ [c])
    (hle : answers cfg tr₂ ≤ before.length) :
    ∃ more, s₂.deferred = before.drop (answers cfg tr₂) ++ c :: more := by
  refine h.since (I := fun l s => answers cfg l ≤ before.length →
    ∃ more, s.deferred = before.drop (answers cfg l) ++ c :: more) rfl ?_ ?_ hle
  · intro _ _ _
    exact ⟨[], hd⟩
  · intro tr l s₃ a₃ s₄ htr _ ih hstep hle
    unfold answers at hle ih ⊢
    rw [List.countP_append, List.countP_singleton] at hle ⊢
    obtain ⟨more', hmove⟩ := act_deferred (serverOk_of_trace htr) hstep.2
    by_cases hf : finishes cfg (s₃, a₃, s₄) = true
    · rw [if_pos hf] at hle hmove ⊢
      obtain ⟨more, hmore⟩ := ih (by omega)
      obtain ⟨c', rest, hc, hrest⟩ := hmove
      rw [hmore, List.drop_eq_getElem_cons (by omega), List.cons_append] at hc
      refine ⟨more ++ more', ?_⟩
      rw [hrest, ← (List.cons.inj hc).2, List.append_assoc, List.cons_append]
    · rw [if_neg hf] at hle hmove ⊢
      obtain ⟨more, hmore⟩ := ih (by omega)
      refine ⟨more ++ more', ?_⟩
      rw [hmove, hmore, List.append_assoc, List.cons_append]
      rfl

end Line

/-! ## 2. Sinks -/

/-- The free sinks are distinct and of the list of the start. -/
structure SinksOk (s : Adapter) : Prop where
  nodup : s.dSinks.freeList.Nodup
  known : ∀ sink ∈ s.dSinks.freeList, sink ∈ s.dSinks.initList

/-- **What a step does to the sinks**: nothing, or it takes one, or with a GrantAck it frees one. A
    grant that is out stays so, but for the one that is acknowledged. -/
structure SinkTurn (s s' : Adapter) (a : Action) : Prop where
  list : s'.dSinks = s.dSinks ∨
    (∃ sink ∈ s.dSinks.freeList,
      s'.dSinks = { s.dSinks with freeList := s.dSinks.freeList.erase sink }) ∨
    ∃ sink, a = .e sink ∧ sink ∈ s.dSinks.initList ∧ sink ∉ s.dSinks.freeList ∧
      s'.dSinks.initList = s.dSinks.initList ∧
      s'.dSinks.freeList = s.dSinks.freeList ++ [sink]
  grants : ∀ sink, a ≠ .e sink → s.ongoingTlc.contains sink = true →
    s'.ongoingTlc.contains sink = true

section Sinks

variable {cfg : Config} {s s' : Adapter} {a : Action}

/-- Nothing happens to the sinks, and no grant that is out is forgotten. -/
structure SinksKept (s s' : Adapter) : Prop where
  dSinks : s'.dSinks = s.dSinks
  grants : ∀ sink, s.ongoingTlc.contains sink = true → s'.ongoingTlc.contains sink = true

theorem SinksKept.of_eq (hd : s'.dSinks = s.dSinks) (ho : s'.ongoingTlc = s.ongoingTlc) :
    SinksKept s s' :=
  ⟨hd, fun _ hc => by rw [ho]; exact hc⟩

theorem SinksKept.trans {s₁ : Adapter} (h : SinksKept s s₁) (h' : SinksKept s₁ s') :
    SinksKept s s' :=
  ⟨h'.dSinks.trans h.dSinks, fun sink hc => h'.grants sink (h.grants sink hc)⟩

theorem SinksKept.turn (h : SinksKept s s') : SinkTurn s s' a :=
  ⟨.inl h.dSinks, fun sink _ hc => h.grants sink hc⟩

theorem retrieveBlockCb_sinks {r : Retrieve} (h : s.retrieveBlockCb r = .ok s') :
    SinksKept s s' := by
  refine .of_eq ?_ (Adapter.retrieveBlockCb_ongoingTlc h)
  unfold Adapter.retrieveBlockCb at h
  simp only [bind_ok] at h
  obtain ⟨⟨bSrc, bSrcs, s₁⟩, h₁, bCallback, _, h⟩ := h
  obtain ⟨random, rfl⟩ := Adapter.choice_spec h₁
  cases h
  rfl

theorem retrieveBlock_sinks {c : Callback} {param size addr mask : Nat}
    (h : s.retrieveBlock c param size addr mask = .ok s') : SinksKept s s' := by
  unfold Adapter.retrieveBlock at h
  simp only at h
  split at h
  · cases h
    exact .of_eq rfl rfl
  · exact retrieveBlockCb_sinks h

theorem call_sinks {c : Callback} (h : s.call cfg c = .ok s') : SinksKept s s' := by
  cases c with
  | accessAck | accessAckData | enableProbe =>
      cases h
      exact .of_eq rfl rfl
  | grantData burstLen addrAligned param sink size source blockAddr =>
      cases h
      exact ⟨rfl, fun _ hc => Dict.contains_set hc⟩
  | arithmeticAck | logicalAck =>
      simp only [Adapter.call, Adapter.atomicAckCb] at h
      split at h <;> cases h
  | grant => cases h
  | probeBlocksRec addrs =>
      cases addrs with
      | nil =>
          cases h
          exact .of_eq rfl rfl
      | cons addr addrs => exact retrieveBlock_sinks h

theorem bSrcsRelease_sinks {src : Nat} (h : s.bSrcsRelease src = .ok s') : SinksKept s s' := by
  unfold Adapter.bSrcsRelease at h
  split at h
  · have hnext := retrieveBlockCb_sinks h
    exact ⟨hnext.dSinks, hnext.grants⟩
  · cases h
    exact .of_eq rfl rfl
  · cases h

theorem answerProbe_sinks {b : CBeat} (h : s.answerProbe cfg b = .ok s') : SinksKept s s' := by
  unfold Adapter.answerProbe at h
  rw [bind_ok] at h
  obtain ⟨s₁, h₁, h⟩ := h
  have hcall : SinksKept s s₁ := by
    unfold Adapter.bCallbackCall at h₁
    split at h₁
    · have htaken := call_sinks h₁
      exact ⟨htaken.dSinks, htaken.grants⟩
    · cases h₁
      exact .of_eq rfl rfl
    · cases h₁
  exact hcall.trans (bSrcsRelease_sinks h)

theorem returnBlock_sinks (b : CBeat) : SinksKept s (s.returnBlock cfg b) := by
  unfold Adapter.returnBlock
  split <;> exact .of_eq rfl rfl

theorem SinkTurn.of_same (hd : s'.dSinks = s.dSinks) (ho : s'.ongoingTlc = s.ongoingTlc) :
    SinkTurn s s' a := (SinksKept.of_eq hd ho).turn

/-- Channel C takes no sink. -/
theorem cOpcode_sinks {b : CBeat} (h : s.cOpcode cfg b = .ok s') : SinksKept s s' := by
  have hdata : ∀ {last : Adapter → Except Error Adapter},
      (∀ {s₁ s₂ : Adapter}, last s₁ = .ok s₂ → SinksKept s₁ s₂) →
      s.dataBeat cfg b last = .ok s' → SinksKept s s' := by
    intro last hlast h
    unfold Adapter.dataBeat at h
    simp only at h
    split at h
    · rw [bind_ok] at h
      obtain ⟨s₁, h₁, h⟩ := h
      cases h
      have hrest := (returnBlock_sinks b).trans (hlast h₁)
      exact ⟨hrest.dSinks, hrest.grants⟩
    · cases h
      exact .of_eq rfl rfl
  unfold Adapter.cOpcode at h
  split at h
  · cases h
  · cases h
  · cases h
  · cases h
    exact .of_eq rfl rfl
  · exact (returnBlock_sinks b).trans (answerProbe_sinks h)
  · exact hdata answerProbe_sinks h
  · cases h
    have hback := @returnBlock_sinks cfg s b
    exact ⟨hback.dSinks, hback.grants⟩
  · refine hdata (fun hs => ?_) h
    cases hs
    exact .of_eq rfl rfl

theorem putData_sinks {b : ABeat} (h : s.putData cfg b = .ok s') : SinksKept s s' := by
  unfold Adapter.putData at h
  simp only at h
  split at h
  · rw [bind_ok] at h
    obtain ⟨s₁, h₁, h⟩ := h
    have hnew : SinksKept s s₁ := by
      unfold Adapter.newBurst at h₁
      split at h₁
      · have hreq := retrieveBlock_sinks h₁
        exact ⟨hreq.dSinks, hreq.grants⟩
      · cases h₁
        exact .of_eq rfl rfl
    refine hnew.trans ?_
    unfold Adapter.collect at h
    split at h
    · cases h
      exact .of_eq rfl rfl
    · cases h
  · split at h
    · cases h
      exact .of_eq rfl rfl
    · cases h
      exact .of_eq rfl rfl

theorem atomicData_sinks {b : ABeat} {title : String} {op : Nat → Nat → Option Int}
    {callback : Nat → Nat → Nat → Nat → Nat → Nat → Nat → Callback}
    (h : s.atomicData cfg b title op callback = .ok s') : SinksKept s s' := by
  unfold Adapter.atomicData at h
  simp only [bind_ok] at h
  obtain ⟨_, _, offset, _, h⟩ := h
  split at h
  · exact retrieveBlock_sinks h
  · unfold Adapter.atomicOp at h
    simp only at h
    split at h
    · cases h
    · cases h
      exact .of_eq rfl rfl

/-- A sink is chosen among the free ones. -/
theorem choice_sink {dSinks : FreeList Retrieve} {sink : Nat} {s₁ : Adapter}
    (h : s.choice s.dSinks = .ok (sink, dSinks, s₁)) :
    sink ∈ s.dSinks.freeList ∧
    dSinks = { s.dSinks with freeList := s.dSinks.freeList.erase sink } := by
  unfold Adapter.choice at h
  rw [bind_ok] at h
  obtain ⟨⟨ret, f⟩, hget, h⟩ := h
  cases h
  unfold FreeList.get at hget
  split at hget
  · rename_i ret hret
    cases hget
    exact ⟨List.mem_of_getElem? hret, rfl⟩
  · cases hget

theorem acquireBlock_sinks {b : ABeat} (h : s.acquireBlock cfg b = .ok s') :
    SinkTurn s s' a := by
  unfold Adapter.acquireBlock at h
  rw [bind_ok] at h
  obtain ⟨⟨dSink, dSinks, s₁⟩, hchoice, h⟩ := h
  obtain ⟨hmem, rfl⟩ := choice_sink hchoice
  obtain ⟨random, rfl⟩ := Adapter.choice_spec hchoice
  simp only at h
  split at h
  · have hk := retrieveBlock_sinks h
    exact ⟨.inr (.inl ⟨dSink, hmem, hk.dSinks⟩), fun sink _ hc => hk.grants sink hc⟩
  · cases h
    exact ⟨.inr (.inl ⟨dSink, hmem, rfl⟩), fun _ _ hc => Dict.contains_set hc⟩

theorem acquirePerm_sinks {b : ABeat} (h : s.acquirePerm cfg b = .ok s') :
    SinkTurn s s' a := by
  unfold Adapter.acquirePerm at h
  rw [bind_ok] at h
  obtain ⟨⟨dSink, dSinks, s₁⟩, hchoice, h⟩ := h
  obtain ⟨hmem, rfl⟩ := choice_sink hchoice
  obtain ⟨random, rfl⟩ := Adapter.choice_spec hchoice
  simp only at h
  split at h
  · cases h
  · cases h
    exact ⟨.inr (.inl ⟨dSink, hmem, rfl⟩), fun _ _ hc => Dict.contains_set hc⟩

theorem aOpcode_sinks {b : ABeat} (h : s.aOpcode cfg b = .ok s') : SinkTurn s s' a := by
  unfold Adapter.aOpcode at h
  cases hop : b.opcode with
  | get =>
      simp only [hop] at h
      unfold Adapter.getData at h
      simp only at h
      split at h
      · exact (retrieveBlock_sinks h).turn
      · cases h
        exact .of_same rfl rfl
  | putFullData | putPartialData =>
      simp only [hop] at h
      exact (putData_sinks h).turn
  | arithmeticData | logicalData =>
      simp only [hop] at h
      split at h
      · exact (atomicData_sinks h).turn
      · cases h
        exact .of_same rfl rfl
  | intent =>
      simp only [hop] at h
      split at h
      · cases h
        exact .of_same rfl rfl
      · cases h
        exact .of_same rfl rfl
  | acquireBlock =>
      simp only [hop] at h
      split at h
      · exact acquireBlock_sinks h
      · cases h
        exact .of_same rfl rfl
  | acquirePerm =>
      simp only [hop] at h
      split at h
      · exact acquirePerm_sinks h
      · cases h
        exact .of_same rfl rfl

theorem dPop_sinks {msg : Option DMessage} (h : s.dPop = .ok (msg, s')) : SinksKept s s' := by
  unfold Adapter.dPop at h
  split at h
  · cases h
    exact .of_eq rfl rfl
  · cases h
    exact .of_eq rfl rfl
  · cases h
    exact .of_eq rfl rfl
  · rw [bind_ok] at h
    obtain ⟨s₁, h₁, h⟩ := h
    cases h
    rename_i cb q _
    cases cb with
    | updateMem burst =>
        unfold Adapter.callD Adapter.updateMem at h₁
        simp only at h₁
        split at h₁
        · cases h₁
          exact .of_eq rfl rfl
        · cases h₁
    | updatePerm blockAddr param =>
        cases h₁
        unfold Adapter.updatePerm
        split <;> exact .of_eq rfl rfl

/-- A GrantAck frees its sink. -/
theorem ePortMonitor_sinks {sink : Nat} (h : s.ePortMonitor sink = .ok s') :
    SinkTurn s s' (.e sink) := by
  unfold Adapter.ePortMonitor at h
  rw [bind_ok] at h
  obtain ⟨⟨dSinks, event⟩, hrel, h⟩ := h
  unfold FreeList.release at hrel
  simp only [bind_ok, check_ok] at hrel
  obtain ⟨_, hinit, _, hnot, hrel⟩ := hrel
  cases hrel
  simp only at h
  split at h
  · cases h
    refine ⟨.inr (.inr ⟨sink, rfl, hinit, hnot, rfl, rfl⟩), fun k hne hc => ?_⟩
    exact Dict.contains_erase (fun e => hne (congrArg Action.e e.symm)) hc
  · cases h

/-- **Every step of the adapter.** -/
theorem act_sinks (h : s.act cfg a = .ok s') : SinkTurn s s' a := by
  cases a with
  | a b =>
      have hop := aOpcode_sinks (a := .a b) (Adapter.aPortMonitor_ok h)
      exact ⟨hop.list, hop.grants⟩
  | c b => exact (cOpcode_sinks (Adapter.cPortMonitor_ok h)).turn
  | e sink => exact ePortMonitor_sinks h
  | dPop =>
      unfold Adapter.act at h
      simp only [bind_ok] at h
      obtain ⟨⟨msg, s₁⟩, h₁, h⟩ := h
      cases h
      exact (dPop_sinks h₁).turn
  | bPop =>
      cases h
      unfold Adapter.bPop
      split <;> exact .of_same rfl rfl
  | probeBlock addr =>
      cases h
      exact .of_same rfl rfl
  | hostInterface =>
      unfold Adapter.act Adapter.hostInterface at h
      simp only at h
      split at h
      · split at h
        · rw [bind_ok] at h
          obtain ⟨s₁, h₁, h⟩ := h
          cases h
          have hreq := retrieveBlock_sinks h₁
          exact SinksKept.turn ⟨hreq.dSinks, hreq.grants⟩
        · cases h
          exact .of_same rfl rfl
      · cases h
        exact .of_same rfl rfl
  | stop =>
      cases h
      exact .of_same rfl rfl
  | dataRetriever =>
      unfold Adapter.act Adapter.dataRetriever at h
      simp only at h
      split at h
      · have hrec := call_sinks (c := .probeBlocksRec _) h
        exact SinksKept.turn ⟨hrec.dSinks, hrec.grants⟩
      · cases h
        exact .of_same rfl rfl

/-! ## 3. A sink that is in use -/

/-- The sink is in use: it is not free, and can be freed. -/
structure InUse (s : Adapter) (sink : Nat) : Prop where
  known : sink ∈ s.dSinks.initList
  used : sink ∉ s.dSinks.freeList

theorem SinksOk.step (h : SinksOk s) (hs : s.act cfg a = .ok s') : SinksOk s' := by
  rcases (act_sinks hs).list with hd | ⟨sink, hmem, hd⟩ | ⟨sink, _, hinit, hnot, hil, hfl⟩
  · exact ⟨by rw [hd]; exact h.nodup, by rw [hd]; exact h.known⟩
  · refine ⟨by rw [hd]; exact h.nodup.erase sink, fun x hx => ?_⟩
    rw [hd] at hx ⊢
    exact h.known x (List.mem_of_mem_erase hx)
  · refine ⟨?_, fun x hx => ?_⟩
    · rw [hfl]
      exact List.nodup_append.mpr ⟨h.nodup, List.nodup_singleton sink, fun x hx y hy e => hnot (by
        rw [List.mem_singleton.mp hy] at e
        exact e ▸ hx)⟩
    · rw [hfl] at hx
      rw [hil]
      rcases List.mem_append.mp hx with hx | hx
      · exact h.known x hx
      · exact List.mem_singleton.mp hx ▸ hinit

/-- **Only its GrantAck frees a sink.** -/
theorem InUse.step {sink : Nat} (h : InUse s sink) (ha : a ≠ .e sink)
    (hs : s.act cfg a = .ok s') : InUse s' sink := by
  rcases (act_sinks hs).list with hd | ⟨k, _, hd⟩ | ⟨k, hk, _, _, hil, hfl⟩
  · exact ⟨by rw [hd]; exact h.known, by rw [hd]; exact h.used⟩
  · refine ⟨by rw [hd]; exact h.known, fun hx => h.used ?_⟩
    rw [hd] at hx
    exact List.mem_of_mem_erase hx
  · refine ⟨by rw [hil]; exact h.known, fun hx => ?_⟩
    rw [hfl] at hx
    rcases List.mem_append.mp hx with hx | hx
    · exact h.used hx
    · exact ha (List.mem_singleton.mp hx ▸ hk)

theorem sinksOk_of_trace {tr : List (Adapter × Action × Adapter)}
    (h : (machine cfg).Trace tr s) : SinksOk s := by
  refine h.inv (I := SinksOk) (P := fun _ _ => True) (fun s hs => ?_)
    (fun _ _ _ hok _ (hs : _ ∧ _) => hok.step hs.2) fun _ _ => trivial
  obtain ⟨memory, ongoingTlc, probe, probeEn, probeAddr, σ, random, rfl⟩ := hs
  have hnodup : ([0, 1, 2, 3] : List Nat).Nodup := by decide
  exact ⟨hnodup, fun _ hx => hx⟩

/-- As long as no GrantAck for it comes, a sink stays in use, and its grant stays out. -/
theorem inUse_since {sink : Nat} {tr after : List (Adapter × Action × Adapter)}
    {x : Adapter × Action × Adapter} (h : (machine cfg).Trace (tr ++ x :: after) s)
    (h₀ : InUse x.2.2 sink) (hno : ∀ y ∈ after, y.2.1 ≠ .e sink) : InUse s sink := by
  refine h.since (I := fun _ s => InUse s sink) rfl (fun _ _ => h₀) ?_
  intro _ _ s₁ a₁ s₁' _ hmem hin hstep
  exact hin.step (hno _ hmem) hstep.2

theorem grant_since {sink : Nat} {tr after : List (Adapter × Action × Adapter)}
    {x : Adapter × Action × Adapter} (h : (machine cfg).Trace (tr ++ x :: after) s)
    (h₀ : x.2.2.ongoingTlc.contains sink = true) (hno : ∀ y ∈ after, y.2.1 ≠ .e sink) :
    s.ongoingTlc.contains sink = true := by
  refine h.since (I := fun _ s => s.ongoingTlc.contains sink = true) rfl (fun _ _ => h₀) ?_
  intro _ _ s₁ a₁ s₁' _ hmem hc hstep
  exact (act_sinks hstep.2).grants sink (hno _ hmem) hc

/-- The GrantAck of a sink that is in use, when its grant is out, frees it and nothing else. -/
theorem InUse.grantAck {sink : Nat} (h : InUse s sink) (hc : s.ongoingTlc.contains sink = true) :
    ∃ s', s.ePortMonitor sink = .ok s' ∧ s'.dSinks.freeList = s.dSinks.freeList ++ [sink] ∧
      s'.ongoingTlc = s.ongoingTlc.erase sink := by
  have hrel : s.dSinks.release sink =
      .ok ({ s.dSinks with
        freeList := s.dSinks.freeList ++ [sink], eventQueue := s.dSinks.eventQueue.tail },
        s.dSinks.eventQueue.head?) := by
    unfold FreeList.release check
    rw [if_pos h.known, if_pos h.used]
    rfl
  refine ⟨{ s with
    dSinks := { s.dSinks with
      freeList := s.dSinks.freeList ++ [sink], eventQueue := s.dSinks.eventQueue.tail }
    ongoingTlc := s.ongoingTlc.erase sink }, ?_, rfl, rfl⟩
  unfold Adapter.ePortMonitor
  rw [hrel]
  exact if_pos hc

end Sinks

/-! ## 4. A deferred request and its direct counterpart -/

/-- **A request to a block that is not the adapter's, up to the last beat of the answer to its probe**:
    `between` are the steps after it. The probes that were asked for before are answered before. The
    beat `c` is one that the adapter accepts: its checks hold, and it interrupts no burst. -/
structure Deferral (cfg : Config) (s : Adapter) (b : ABeat)
    (between : List (Adapter × Action × Adapter)) (s₂ : Adapter) (c : CBeat) : Prop where
  run : ∃ tr s₁, (machine cfg).Trace (tr ++ (s, .a b, s₁) :: between) s₂
  perm : s.perm (cfg.blockAddr b.address) ≠ .tip
  earlier : answers cfg between = s.deferred.length
  source : c.source = 0
  last : s₂.finishes cfg c = true
  wellFormed : cAssertions c.opcode c.param c.size c.address c.corrupt cfg.debug = .ok ()
  inTurn : s₂.cOngoings.entries = [] ∨ c.source ∈ s₂.cOngoings.keys

/-- The memory with the data of the client written back: the last beat of a ProbeAckData writes its
    word, the others have written theirs. -/
def writtenBack (cfg : Config) (s : Adapter) (c : CBeat) : Dict Nat Nat :=
  if c.opcode = .probeAckData then
    s.memory.set (cfg.addrAligned c.address + s.cOngoings.getD c.source 0 * cfg.datalen) c.data
  else s.memory

/-- The adapter with this memory, when the block of the request is its own and nothing is queued. -/
def owning (cfg : Config) (s : Adapter) (b : ABeat) (memory : Dict Nat Nat) : Adapter :=
  { s with memory, blockPerm := s.blockPerm.set (cfg.blockAddr b.address) .tip, dQueue := [] }

/-- The direct path: the same request. -/
def direct (cfg : Config) (s : Adapter) (b : ABeat) (memory : Dict Nat Nat) :
    Except Error Adapter :=
  (owning cfg s b memory).aPortMonitor cfg b

/-- **The answer has the result of the direct path** (`d`) on the memory that is written back: the
    memory reads the same, and the same messages are queued. -/
structure AsDirect (cfg : Config) (s : Adapter) (b : ABeat) (s₂ : Adapter) (c : CBeat)
    (s' d : Adapter) : Prop where
  answered : s₂.cPortMonitor cfg c = .ok s'
  direct : Deferred.direct cfg s b (writtenBack cfg s₂ c) = .ok d
  memory : ∀ x, s'.memory.getD x 0 = d.memory.getD x 0
  messages : s'.dQueue = s₂.dQueue ++ d.dQueue

section Answer

variable {cfg : Config} {s s₂ s' : Adapter} {b : ABeat} {c : CBeat}
  {between : List (Adapter × Action × Adapter)}

/-- What a beat of channel C does when it ends the answer to a probe. -/
theorem cPortMonitor_of_finishes (hlast : s.finishes cfg c = true)
    (hwf : cAssertions c.opcode c.param c.size c.address c.corrupt cfg.debug = .ok ())
    (hturn : s.cOngoings.entries = [] ∨ c.source ∈ s.cOngoings.keys) :
    ∃ counted : Adapter → Dict Nat Nat, s.cPortMonitor cfg c = (do
      let s' ← ({ s with memory := writtenBack cfg s c }.returnBlock cfg c).answerProbe cfg c
      return { s' with cOngoings := counted s' }) := by
  unfold Adapter.finishes at hlast
  unfold Adapter.cPortMonitor check
  rw [hwf, if_pos hturn]
  cases hop : c.opcode with
  | probeAck =>
      have hwritten : writtenBack cfg s c = s.memory := by
        unfold writtenBack
        rw [hop, if_neg (by decide)]
      refine ⟨fun s' => s'.cOngoings, ?_⟩
      show s.cOpcode cfg c = _
      unfold Adapter.cOpcode
      simp only [hop, hwritten]
      cases hans : (s.returnBlock cfg c).answerProbe cfg c <;> rfl
  | probeAckData =>
      rw [hop] at hlast
      have hcount : s.cOngoings.getD c.source 0 + 1 = cfg.burstLen c.size := by simpa using hlast
      refine ⟨fun s' => if s.cOngoings.getD c.source 0 = 0 then s'.cOngoings
        else s'.cOngoings.erase c.source, ?_⟩
      show s.cOpcode cfg c = _
      unfold Adapter.cOpcode writtenBack
      simp only [hop, if_true]
      unfold Adapter.dataBeat
      simp only [hcount, if_true]
  | _ => simp [hop] at hlast

/-- A request puts its callback behind what is deferred. -/
theorem retrieveBlock_deferred {cb : Callback} {param size addr mask : Nat}
    (h : ServerOk [0] s none) (hs : s.retrieveBlock cb param size addr mask = .ok s') :
    s'.deferred = s.deferred ++ [cb] := by
  obtain ⟨s₁, hs₁, hreq, hok⟩ := Adapter.retrieveBlock_requested h cb param size addr mask
  obtain rfl : s' = s₁ := Except.ok.inj (hs.symm.trans hs₁)
  exact requested_deferred h hok hreq

namespace Deferral

/-- **At the end of a deferral the callback of the request is in the table.** -/
theorem callback {cb : Callback} (h : Deferral cfg s b between s₂ c)
    (hreq : ServerOk [0] s none → ∀ s₁, s.aPortMonitor cfg b = .ok s₁ →
      s₁.deferred = s.deferred ++ [cb]) :
    ServerOk [0] s₂ none ∧ s₂.bCallback.cMap.get? c.source = some (some cb) := by
  obtain ⟨tr, s₁, htrace⟩ := h.run
  have hstep := trace_serverOk htrace (s, .a b, s₁) (by simp)
  have hd := hreq hstep.1 s₁ hstep.2
  obtain ⟨more, hmore⟩ := trace_deferred htrace hd (Nat.le_of_eq h.earlier)
  rw [h.earlier, List.drop_length, List.nil_append] at hmore
  have hok := serverOk_of_trace htrace
  refine ⟨hok, ?_⟩
  rw [h.source]
  exact head_deferred hok hmore

end Deferral

/-! ## 5. Atomic operations -/

/-- The callback of a beat of an atomic operation to a block that is not the adapter's. -/
theorem atomicData_deferred {title : String} {op : Nat → Nat → Option Int}
    {callback : Nat → Nat → Nat → Nat → Nat → Nat → Nat → Callback} (h : ServerOk [0] s none)
    (hperm : s.perm (cfg.blockAddr b.address) ≠ .tip)
    (hs : s.atomicData cfg b title op callback = .ok s') :
    ∃ operand1 offset, s'.deferred = s.deferred ++
      [callback operand1 (cfg.burstLen b.size) (cfg.addrAligned b.address) (bitMask b.mask) offset
        b.size b.source] := by
  unfold Adapter.atomicData at hs
  simp only [bind_ok] at hs
  obtain ⟨_, _, offset, _, hs⟩ := hs
  rw [if_pos hperm] at hs
  exact ⟨_, offset, retrieveBlock_deferred h hs⟩

/-- **The callback of an atomic operation raises**: it looks a word up that may be missing, and uses
    a name that is not defined. -/
theorem atomicAckCb_raises (s : Adapter) (addrAligned : Nat) :
    ∃ e, s.atomicAckCb addrAligned = .error e := by
  unfold Adapter.atomicAckCb
  split
  · exact ⟨_, rfl⟩
  · exact ⟨_, rfl⟩

/-- The callback of a deferred atomic operation. -/
def isAtomic : Callback → Bool
  | .arithmeticAck .. | .logicalAck .. => true
  | _ => false

theorem call_raises (cfg : Config) {cb : Callback} (h : isAtomic cb = true) (s : Adapter) :
    ∃ e, s.call cfg cb = .error e := by
  cases cb with
  | arithmeticAck _ _ addrAligned | logicalAck _ _ addrAligned =>
      exact atomicAckCb_raises s addrAligned
  | _ => cases h

theorem atomic_deferred (hop : b.opcode = .arithmeticData ∨ b.opcode = .logicalData)
    (hUh : cfg.protocol.hasUh = true) (h : ServerOk [0] s none)
    (hperm : s.perm (cfg.blockAddr b.address) ≠ .tip) (hs : s.aPortMonitor cfg b = .ok s') :
    ∃ cb, isAtomic cb = true ∧ s'.deferred = s.deferred ++ [cb] := by
  have htouched : ServerOk [0] (s.touch (cfg.blockAddr b.address)) none :=
    Adapter.serverOk_congr h rfl rfl
  have hperm' : (s.touch (cfg.blockAddr b.address)).perm (cfg.blockAddr b.address) ≠ .tip := by
    rw [Adapter.perm_touch]
    exact hperm
  have hs := Adapter.aPortMonitor_ok hs
  unfold Adapter.aOpcode at hs
  rcases hop with hop | hop
  · simp only [hop, hUh, if_true] at hs
    obtain ⟨operand1, offset, hd⟩ := atomicData_deferred htouched hperm' hs
    exact ⟨_, rfl, hd⟩
  · simp only [hop, hUh, if_true] at hs
    obtain ⟨operand1, offset, hd⟩ := atomicData_deferred htouched hperm' hs
    exact ⟨_, rfl, hd⟩

/-- **No deferred atomic operation equals a direct one**, whatever the operation, the answer and the
    steps on the way are: the last beat of the answer raises. -/
theorem atomic_not_asDirect (hop : b.opcode = .arithmeticData ∨ b.opcode = .logicalData)
    (hUh : cfg.protocol.hasUh = true) (h : Deferral cfg s b between s₂ c) (s' d : Adapter) :
    ¬ AsDirect cfg s b s₂ c s' d := by
  intro hdirect
  obtain ⟨tr, s₁, htrace⟩ := h.run
  have hstep := trace_serverOk htrace (s, .a b, s₁) (by simp)
  obtain ⟨cb, hcb, hd⟩ := atomic_deferred hop hUh hstep.1 h.perm hstep.2
  have hdefer : ServerOk [0] s none → ∀ s₁', s.aPortMonitor cfg b = .ok s₁' →
      s₁'.deferred = s.deferred ++ [cb] := fun _ s₁' hs₁' => by
    obtain rfl : s₁ = s₁' := Except.ok.inj (hstep.2.symm.trans hs₁')
    exact hd
  obtain ⟨_, hget⟩ := h.callback hdefer
  obtain ⟨counted, heq⟩ := cPortMonitor_of_finishes h.last h.wellFormed h.inTurn
  have hans := hdirect.answered
  rw [heq, bind_ok] at hans
  obtain ⟨s₃, hans, _⟩ := hans
  unfold Adapter.answerProbe at hans
  rw [bind_ok] at hans
  obtain ⟨s₄, hcall, _⟩ := hans
  rw [Adapter.bCallbackCall_eq ?_] at hcall
  · obtain ⟨e, he⟩ := call_raises cfg hcb _
    rw [he] at hcall
    cases hcall
  · rw [(Adapter.returnBlock_service c).1.bCallback]
    exact hget

/-! ## 6. Acquires -/

/-- **The Acquire has the result of a direct one.** It is accepted, with a sink. After every deferral
    the answer equals the direct path, which gives the same sink and records the same grant; and
    from then on the GrantAck for the sink frees it and ends the grant, whenever it comes. The client
    acknowledges no grant before it has come. -/
def Settles (cfg : Config) (s : Adapter) (b : ABeat) : Prop :=
  (∃ s₁, s.aPortMonitor cfg b = .ok s₁) ∧
  ∃ sink dSinks, s.dSinks.get (s.random 0) = .ok (sink, dSinks) ∧
    ∀ between s₂ c, Deferral cfg s b between s₂ c → (∀ x ∈ between, x.2.1 ≠ .e sink) →
      ∃ s' d, AsDirect cfg s b s₂ c s' d ∧
        (∀ e ∈ d.dQueue, ∃ msg, e.1 = some msg ∧ msg.sink = sink) ∧
        s'.ongoingTlc = s₂.ongoingTlc.set sink (cfg.blockAddr b.address) ∧
        d.ongoingTlc = s.ongoingTlc.set sink (cfg.blockAddr b.address) ∧
        ∀ tr after s₃, (machine cfg).Trace (tr ++ (s₂, .c c, s') :: after) s₃ →
          (∀ x ∈ after, x.2.1 ≠ .e sink) →
          ∃ s₄, s₃.ePortMonitor sink = .ok s₄ ∧
            s₄.dSinks.freeList = s₃.dSinks.freeList ++ [sink] ∧
            s₄.ongoingTlc = s₃.ongoingTlc.erase sink

/-- A sink is handed out if one is free. -/
theorem get_ok {f : FreeList Retrieve} {r : Nat} (hne : f.freeList ≠ []) :
    ∃ sink ∈ f.freeList,
      f.get r = .ok (sink, { f with freeList := f.freeList.erase sink }) := by
  have hlt : r % f.freeList.length < f.freeList.length :=
    Nat.mod_lt _ (List.length_pos_iff.mpr hne)
  refine ⟨f.freeList[r % f.freeList.length], List.getElem_mem hlt, ?_⟩
  unfold FreeList.get
  rw [List.getElem?_eq_getElem hlt]

theorem aPortMonitor_eq
    (hwf : aAssertions b.opcode b.param b.size b.address b.mask cfg.debug = .ok ())
    (hturn : s.aOngoings.entries = [] ∨ b.source ∈ s.aOngoings.keys) :
    s.aPortMonitor cfg b = (s.touch (cfg.blockAddr b.address)).aOpcode cfg b := by
  unfold Adapter.aPortMonitor check
  rw [hwf, if_pos hturn]
  rfl

/-- The state when a sink has been chosen. -/
def chosen (s : Adapter) (dSinks : FreeList Retrieve) : Adapter :=
  { s with dSinks, random := fun i => s.random (i + 1) }

/-- What an AcquireBlock does once it has its sink. -/
theorem acquireBlock_eq {sink : Nat} {dSinks : FreeList Retrieve}
    (hget : s.dSinks.get (s.random 0) = .ok (sink, dSinks)) :
    s.acquireBlock cfg b =
      if s.perm (cfg.blockAddr b.address) ≠ .tip then
        (chosen s dSinks).retrieveBlock
          (.grantData (cfg.burstLen b.size) (cfg.addrAligned b.address) (Adapter.grantParam b) sink
            b.size b.source (cfg.blockAddr b.address)) (Adapter.probeParam b) b.size b.address b.mask
      else .ok ((chosen s dSinks).grantDataCb cfg (cfg.burstLen b.size) (cfg.addrAligned b.address)
        (Adapter.grantParam b) sink b.size b.source (cfg.blockAddr b.address)) := by
  unfold Adapter.acquireBlock Adapter.choice
  rw [hget]
  rfl

/-- The direct path of an AcquireBlock. -/
theorem direct_acquireBlock {sink : Nat} {dSinks : FreeList Retrieve} (memory : Dict Nat Nat)
    (hop : b.opcode = .acquireBlock) (htl : cfg.protocol = .tlC)
    (hwf : aAssertions b.opcode b.param b.size b.address b.mask cfg.debug = .ok ())
    (hturn : s.aOngoings.entries = [] ∨ b.source ∈ s.aOngoings.keys)
    (hget : s.dSinks.get (s.random 0) = .ok (sink, dSinks)) :
    ∃ s₀ : Adapter, s₀.memory = memory ∧ s₀.dQueue = [] ∧ s₀.ongoingTlc = s.ongoingTlc ∧
      direct cfg s b memory = .ok (s₀.grantDataCb cfg (cfg.burstLen b.size)
        (cfg.addrAligned b.address) (Adapter.grantParam b) sink b.size b.source
        (cfg.blockAddr b.address)) := by
  refine ⟨chosen ((owning cfg s b memory).touch (cfg.blockAddr b.address)) dSinks, rfl, rfl, rfl, ?_⟩
  unfold direct
  rw [aPortMonitor_eq (s := owning cfg s b memory) hwf hturn]
  unfold Adapter.aOpcode
  simp only [hop, htl, if_true]
  rw [acquireBlock_eq (s := (owning cfg s b memory).touch (cfg.blockAddr b.address)) hget, if_neg]
  rw [Adapter.perm_touch]
  intro hne
  refine hne ?_
  show (s.blockPerm.set _ _).getD _ _ = _
  rw [Dict.getD_set, if_pos rfl]

/-- What a grant pushes depends on the memory alone. -/
def grantEntries (cfg : Config) (b : ABeat) (sink : Nat) (memory : Dict Nat Nat) : List DEntry :=
  ((Adapter.getDMessages cfg .grantData memory (cfg.addrAligned b.address) (Adapter.grantParam b)
    b.size b.source sink (cfg.burstLen b.size)).1.map some).zip
      (some (.updatePerm (cfg.blockAddr b.address) (Adapter.grantParam b)) ::
        List.replicate ((Adapter.getDMessages cfg .grantData memory (cfg.addrAligned b.address)
          (Adapter.grantParam b) b.size b.source sink (cfg.burstLen b.size)).1.length - 1) none)

theorem mem_grantEntries {sink : Nat} {memory : Dict Nat Nat} {e : DEntry}
    (h : e ∈ grantEntries cfg b sink memory) : ∃ msg, e.1 = some msg ∧ msg.sink = sink := by
  obtain ⟨x, cb⟩ := e
  obtain ⟨hx, _⟩ := List.of_mem_zip h
  obtain ⟨msg, hmsg, rfl⟩ := List.mem_map.mp hx
  rw [(Adapter.getDMessages_spec ..).1] at hmsg
  obtain ⟨i, _, rfl⟩ := List.mem_map.mp hmsg
  exact ⟨_, rfl, rfl⟩

/-- **The answer to the probe of an AcquireBlock** gives the sink to the client, as the direct path
    does. -/
theorem acquireBlock_answered {sink : Nat} (h : Deferral cfg s b between s₂ c)
    (hserver : ServerOk [0] s₂ none)
    (hget : s₂.bCallback.cMap.get? c.source = some (some
      (.grantData (cfg.burstLen b.size) (cfg.addrAligned b.address) (Adapter.grantParam b) sink
        b.size b.source (cfg.blockAddr b.address)))) :
    ∃ s', s₂.cPortMonitor cfg c = .ok s' ∧
      (∀ x, s'.memory.getD x 0 = (writtenBack cfg s₂ c).getD x 0) ∧
      s'.dQueue = s₂.dQueue ++ grantEntries cfg b sink (writtenBack cfg s₂ c) ∧
      s'.ongoingTlc = s₂.ongoingTlc.set sink (cfg.blockAddr b.address) ∧
      s'.dSinks = s₂.dSinks := by
  obtain ⟨counted, heq⟩ := cPortMonitor_of_finishes h.last h.wellFormed h.inTurn
  obtain ⟨hsame, _⟩ :=
    @Adapter.returnBlock_service cfg { s₂ with memory := writtenBack cfg s₂ c } c
  have hstill := Adapter.returnBlock_still (s := { s₂ with memory := writtenBack cfg s₂ c }) cfg c
  have hsinks := @returnBlock_sinks cfg { s₂ with memory := writtenBack cfg s₂ c } c
  have hgrants :=
    (@Adapter.returnBlock_service cfg { s₂ with memory := writtenBack cfg s₂ c } c).2
  generalize { s₂ with memory := writtenBack cfg s₂ c }.returnBlock cfg c = s₀ at *
  -- the callback is taken out and runs, then the source is released
  have hget₀ : s₀.bCallback.cMap.get? c.source = some (some
      (.grantData (cfg.burstLen b.size) (cfg.addrAligned b.address) (Adapter.grantParam b) sink
        b.size b.source (cfg.blockAddr b.address))) := by
    rw [hsame.bCallback]
    exact hget
  have hserver₀ := Adapter.serverOk_congr hserver hsame.bSrcs hsame.bCallback
  have hhold := Adapter.serverOk_taken hserver₀ hget₀
  have hnone : (s₀.taken c.source).bCallback.cMap.get? c.source = some none := by
    rw [Adapter.get?_taken, if_pos rfl]
  have hheld : ServerOk [0] ((s₀.taken c.source).grantDataCb cfg (cfg.burstLen b.size)
      (cfg.addrAligned b.address) (Adapter.grantParam b) sink b.size b.source
      (cfg.blockAddr b.address)) (some c.source) := Adapter.serverOk_congr hhold rfl rfl
  obtain ⟨s₃, hrel, _, _⟩ := Adapter.bSrcsRelease_released hheld hnone
  have hans : s₀.answerProbe cfg c = .ok s₃ := by
    unfold Adapter.answerProbe
    rw [Adapter.bCallbackCall_eq hget₀]
    exact hrel
  have hstill₃ := Adapter.bSrcsRelease_still hrel
  have hmem : s₀.memory = writtenBack cfg s₂ c := hstill.memory
  have hqueue : s₀.dQueue = s₂.dQueue := hstill.dQueue
  refine ⟨{ s₃ with cOngoings := counted s₃ }, ?_, fun x => ?_, ?_, ?_, ?_⟩
  · rw [heq, hans]
    rfl
  · show s₃.memory.getD x 0 = _
    rw [hstill₃.memory, ← hmem]
    exact (Adapter.getDMessages_spec ..).2 x
  · show s₃.dQueue = _
    rw [hstill₃.dQueue, ← hqueue, ← hmem]
    rfl
  · show s₃.ongoingTlc = _
    rw [Adapter.bSrcsRelease_ongoingTlc hrel]
    exact congrArg (Dict.set · sink (cfg.blockAddr b.address)) hgrants
  · show s₃.dSinks = _
    rw [(bSrcsRelease_sinks hrel).dSinks]
    exact hsinks.dSinks

/-- An AcquirePerm that would have to wait raises. -/
theorem acquirePerm_raises (hperm : s.perm (cfg.blockAddr b.address) ≠ .tip) (s' : Adapter) :
    s.acquirePerm cfg b ≠ .ok s' := by
  intro h
  unfold Adapter.acquirePerm at h
  rw [bind_ok] at h
  obtain ⟨⟨sink, dSinks, s₁⟩, hchoice, h⟩ := h
  obtain ⟨random, rfl⟩ := Adapter.choice_spec hchoice
  simp only at h
  split at h
  · cases h
  · rename_i htip
    exact htip hperm

/-- An AcquireBlock that has to wait: the adapter has its sink, and the grant is deferred. -/
theorem acquireBlock_deferred {sink : Nat} {dSinks : FreeList Retrieve} {s₁ : Adapter}
    (hop : b.opcode = .acquireBlock) (htl : cfg.protocol = .tlC) (h : ServerOk [0] s none)
    (hperm : s.perm (cfg.blockAddr b.address) ≠ .tip)
    (hget : s.dSinks.get (s.random 0) = .ok (sink, dSinks))
    (hs : s.aPortMonitor cfg b = .ok s₁) :
    s₁.dSinks = dSinks ∧ s₁.deferred = s.deferred ++
      [.grantData (cfg.burstLen b.size) (cfg.addrAligned b.address) (Adapter.grantParam b) sink
        b.size b.source (cfg.blockAddr b.address)] := by
  have hs := Adapter.aPortMonitor_ok hs
  unfold Adapter.aOpcode at hs
  simp only [hop, htl, if_true] at hs
  rw [acquireBlock_eq (s := s.touch (cfg.blockAddr b.address)) hget, if_pos] at hs
  · have hchosen : ServerOk [0] (chosen (s.touch (cfg.blockAddr b.address)) dSinks) none :=
      Adapter.serverOk_congr h rfl rfl
    have hd := retrieveBlock_deferred hchosen hs
    exact ⟨(retrieveBlock_sinks hs).dSinks, hd⟩
  · rw [Adapter.perm_touch]
    exact hperm

/-- **An Acquire of a block that the client owns settles** exactly if it asks for the data of the
    block and a sink is free: the adapter has no way to probe for an AcquirePerm. -/
theorem settles_iff {tr : List (Adapter × Action × Adapter)} (hrun : (machine cfg).Trace tr s)
    (htl : cfg.protocol = .tlC) (hop : b.opcode = .acquireBlock ∨ b.opcode = .acquirePerm)
    (hperm : s.perm (cfg.blockAddr b.address) ≠ .tip)
    (hwf : aAssertions b.opcode b.param b.size b.address b.mask cfg.debug = .ok ())
    (hturn : s.aOngoings.entries = [] ∨ b.source ∈ s.aOngoings.keys) :
    Settles cfg s b ↔ b.opcode = .acquireBlock ∧ s.dSinks.freeList ≠ [] := by
  have hperm' : (s.touch (cfg.blockAddr b.address)).perm (cfg.blockAddr b.address) ≠ .tip := by
    rw [Adapter.perm_touch]
    exact hperm
  constructor
  · intro hsettles
    obtain ⟨⟨s₁, hs₁⟩, sink, dSinks, hget, _⟩ := hsettles
    refine ⟨?_, fun hnil => ?_⟩
    · rcases hop with hop | hop
      · exact hop
      · have hs₁ := Adapter.aPortMonitor_ok hs₁
        unfold Adapter.aOpcode at hs₁
        simp only [hop, htl, if_true] at hs₁
        exact absurd hs₁ (acquirePerm_raises hperm' s₁)
    · unfold FreeList.get at hget
      rw [hnil] at hget
      cases hget
  · intro h
    obtain ⟨hop, hfree⟩ := h
    have hserver := serverOk_of_trace hrun
    have hsinks := sinksOk_of_trace hrun
    obtain ⟨sink, hmem, hget⟩ := get_ok (r := s.random 0) hfree
    refine ⟨?_, sink, _, hget, fun between s₂ c hd hno => ?_⟩
    · have hchosen : ServerOk [0] (chosen (s.touch (cfg.blockAddr b.address))
          { s.dSinks with freeList := s.dSinks.freeList.erase sink }) none :=
        Adapter.serverOk_congr hserver rfl rfl
      obtain ⟨s₁, hs₁, _⟩ := Adapter.retrieveBlock_requested hchosen
        (.grantData (cfg.burstLen b.size) (cfg.addrAligned b.address) (Adapter.grantParam b) sink
          b.size b.source (cfg.blockAddr b.address)) (Adapter.probeParam b) b.size b.address b.mask
      refine ⟨s₁, ?_⟩
      rw [aPortMonitor_eq hwf hturn]
      unfold Adapter.aOpcode
      simp only [hop, htl, if_true]
      rw [acquireBlock_eq (s := s.touch (cfg.blockAddr b.address)) hget, if_pos hperm']
      exact hs₁
    · obtain ⟨hserver₂, hcallback⟩ := hd.callback fun hok s₁ hs₁ =>
        (acquireBlock_deferred hop htl hok hperm hget hs₁).2
      obtain ⟨s', hs', hmemory, hqueue, hgrants, hdSinks⟩ :=
        acquireBlock_answered hd hserver₂ hcallback
      obtain ⟨s₀, hm₀, hq₀, ho₀, hdirect⟩ :=
        direct_acquireBlock (writtenBack cfg s₂ c) hop htl hwf hturn hget
      refine ⟨s', _, ⟨hs', hdirect, fun x => ?_, ?_⟩, fun e he => ?_, hgrants, ?_,
        fun tr₂ after s₃ htrace hlate => ?_⟩
      · rw [hmemory, ← hm₀]
        exact ((Adapter.getDMessages_spec ..).2 x).symm
      · rw [hqueue, ← hm₀]
        show _ = _ ++ (s₀.dQueue ++ _)
        rw [hq₀, List.nil_append]
        rfl
      · have he : e ∈ s₀.dQueue ++ grantEntries cfg b sink s₀.memory := he
        rw [hq₀, List.nil_append] at he
        exact mem_grantEntries he
      · show s₀.ongoingTlc.set _ _ = _
        rw [ho₀]
      · -- the sink is in use from the request on, and its grant is out from the answer on
        obtain ⟨tr₁, s₁, hfirst⟩ := hd.run
        have hs₁ := (trace_serverOk hfirst (s, .a b, s₁) (by simp)).2
        have hin₁ : InUse s₁ sink := by
          have hds := (acquireBlock_deferred hop htl hserver hperm hget hs₁).1
          refine ⟨?_, ?_⟩
          · rw [hds]
            exact hsinks.known sink hmem
          · rw [hds]
            exact fun hx => (hsinks.nodup.mem_erase_iff.mp hx).1 rfl
        have hin₂ := inUse_since hfirst hin₁ hno
        have hin' : InUse s' sink := ⟨by rw [hdSinks]; exact hin₂.known, by rw [hdSinks]; exact hin₂.used⟩
        have hout' : s'.ongoingTlc.contains sink = true := by
          rw [hgrants]
          unfold Dict.contains
          rw [Dict.get?_set, if_pos rfl]
          rfl
        exact (inUse_since htrace hin' hlate).grantAck (grant_since htrace hout' hlate)

end Answer

/-! ### Runs -/

namespace Demo

def config : Config := { protocol := .tlC, lgDatalen := 6, bDatalen := 8 }

def start : Adapter := .start config .empty .empty false true 0 .insertion fun _ => 0

/-- An Acquire of block 64, to write it. -/
def acquire (opcode : AOpcode) : ABeat :=
  { opcode, param := NtoT, size := 6, source := 1, address := 64, mask := 255, data := 0 }

/-- The client has the block. -/
def lent : Adapter :=
  (exec (turn? config) start [.a (acquire .acquireBlock), .dPop, .e 0]).2

theorem lent_trace : (machine config).Trace
    (exec (turn? config) start [.a (acquire .acquireBlock), .dPop, .e 0]).1 lent :=
  Machine.exec_trace (fun _ _ _ => step_of_turn?) (.start _ ⟨_, _, _, _, _, _, _, rfl⟩) _

/-- An addition to the first word of the block. -/
def add : ABeat :=
  { opcode := .arithmeticData, param := 4, size := 3, source := 2, address := 64, mask := 255
    data := 1 }

/-- The client gives the block up. -/
def ack : CBeat :=
  { opcode := .probeAck, param := TtoN, size := 6, source := 0, address := 64, data := 0
    corrupt := 0 }

def asked : Adapter := valueD (lent.aPortMonitor config add) lent

/-- The probe has been driven, and is answered next. -/
theorem add_deferral :
    Deferral config lent add [(asked, .bPop, asked.bPop.2)] asked.bPop.2 ack where
  run := by
    have hask : (machine config).step lent (.a add) asked :=
      ⟨fun _ => by decide +kernel, eq_ok_valueD _ (by decide +kernel)⟩
    have hpop : (machine config).step asked .bPop asked.bPop.2 :=
      ⟨fun _ => by decide +kernel, rfl⟩
    have htrace := (lent_trace.step _ _ hask).step _ _ hpop
    rw [← List.append_cons] at htrace
    exact ⟨_, asked, htrace⟩
  perm := by decide +kernel
  earlier := by decide +kernel
  source := rfl
  last := rfl
  wellFormed := rfl
  inTurn := .inl (by decide +kernel)

def raised (x : Except Error Adapter) : Option Error :=
  match x with
  | .error e => some e
  | .ok _ => none

theorem eq_error {x : Except Error Adapter} {e : Error} (h : raised x = some e) : x = .error e := by
  cases x with
  | error e' => exact congrArg Except.error (Option.some.inj h)
  | ok s => cases h

end Demo

theorem atomic_not_asDirect_add : Demo.add.opcode = .arithmeticData ∧ ∀ s' d : Adapter,
    ¬ AsDirect Demo.config Demo.lent Demo.add Demo.asked.bPop.2 Demo.ack s' d :=
  ⟨rfl, fun s' d => atomic_not_asDirect (.inl rfl) rfl Demo.add_deferral s' d⟩

/-- The answer to the probe of an addition raises: the old word is looked up, and then `param`. -/
theorem add_raises : ∃ between s₂, Deferral Demo.config Demo.lent Demo.add between s₂ Demo.ack ∧
    s₂.cPortMonitor Demo.config Demo.ack = .error (.name "param") :=
  ⟨_, _, Demo.add_deferral, Demo.eq_error (by decide +kernel)⟩

theorem settles_acquireBlock : Settles Demo.config Demo.lent (Demo.acquire .acquireBlock) :=
  (settles_iff Demo.lent_trace rfl (.inl rfl) (by decide +kernel) rfl (.inl (by decide +kernel))).mpr
    ⟨rfl, by decide +kernel⟩

/-- An AcquirePerm of the block raises where the probe should be asked for. -/
theorem acquirePerm_not_settles : (∃ tr, (machine Demo.config).Trace tr Demo.lent) ∧
    Demo.lent.perm (Demo.config.blockAddr (Demo.acquire .acquirePerm).address) ≠ .tip ∧
    Demo.lent.aPortMonitor Demo.config (Demo.acquire .acquirePerm) =
      .error (.attribute "retrievePerm") ∧
    ¬ Settles Demo.config Demo.lent (Demo.acquire .acquirePerm) := by
  have hraise : Demo.lent.aPortMonitor Demo.config (Demo.acquire .acquirePerm) =
      .error (.attribute "retrievePerm") := Demo.eq_error (by decide +kernel)
  refine ⟨⟨_, Demo.lent_trace⟩, by decide +kernel, hraise, fun hsettles => ?_⟩
  obtain ⟨⟨s₁, hs₁⟩, _⟩ := hsettles
  rw [hraise] at hs₁
  cases hs₁

end Difuzz.TileLink.Deferred
