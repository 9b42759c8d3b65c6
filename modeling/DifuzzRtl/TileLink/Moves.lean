/-
  File:      DifuzzRtl/TileLink/Moves.lean
  Subject:   Runs of the adapter and its client, step by step.

  `Step` says which steps there are; here each has a label, so that what happened in a run can be
  told from the list of its steps.

  * `Move`, `Moved` -- the steps of the system with their labels (`exists_moved_iff`); `system` --
    its runs.
  * `Asked`, `Line` -- what a turn does to the probes that are asked for: there is one source, so
    one of them is under way and the others wait in a line.
  * `System.inFlight`, `Client.answering` -- a probe on its way to the client, and the answer with
    data that the client is sending; `OneProbe` -- a callback in the table has one of both, and there
    are no others.
  * `Client.Aligned` -- the client holds and acquires blocks, not other addresses.
-/
import DifuzzRtl.TileLink.Ownership
import DifuzzRtl.TileLink.Races
import DifuzzRtl.TileLink.Stale

namespace Difuzz.TileLink

/-! ## 1. Steps with labels -/

/-- A turn of a coroutine of the adapter, or the client taking what is driven on channel D or B. -/
inductive Move where
  | act (a : Action)
  | dFire
  | bFire
  deriving DecidableEq, Repr

def ABeat.IsAcquire (b : ABeat) : Prop := b.opcode = .acquireBlock ∨ b.opcode = .acquirePerm

instance (b : ABeat) : Decidable b.IsAcquire := inferInstanceAs (Decidable (_ ∨ _))

namespace Client

variable (cfg : Config) (k : Client)

/-- The client may send what the turn takes from the ports. -/
def May : Action → Prop
  | .a b => b.IsAcquire → k.MayAcquire cfg b
  | .c b => k.MayRespond cfg b
  | _ => True

/-- The client when it has sent that. -/
def sent : Action → Client
  | .a b => if b.IsAcquire then k.acquire cfg b else k
  | .c b => k.respond cfg b
  | _ => k

end Client

/-- The system after a turn of the adapter. -/
def System.turned (cfg : Config) (st : System) (a : Action) (s' : Adapter) : System where
  adapter := s'
  client := st.client.sent cfg a
  dWire := if a = .dPop then st.adapter.driven else st.dWire
  bWire := if a = .bPop then st.adapter.bPop.1 else st.bWire

/-- What the turn drives, the driver has room for. -/
def System.Ready (st : System) : Action → Prop
  | .dPop => st.dWire = none
  | .bPop => st.bWire = none
  | _ => True

/-- **One step, with its label.** -/
inductive Moved (cfg : Config) : System → Move → System → Prop where
  | act (st : System) (a : Action) (s' : Adapter) (hd : a.driven = true → st.adapter.drive = true)
      (hk : st.client.May cfg a) (hw : st.Ready a) (hs : st.adapter.act cfg a = .ok s') :
      Moved cfg st (.act a) (st.turned cfg a s')
  | dFire (st : System) (msg : DMessage) (hw : st.dWire = some msg) :
      Moved cfg st .dFire { st with client := st.client.receive msg, dWire := none }
  | bFire (st : System) (msg : BMessage) (hw : st.bWire = some msg) :
      Moved cfg st .bFire { st with
        client := { st.client with probes := st.client.probes ++ [msg] }, bWire := none }

/-- The runs of the system. -/
def system (cfg : Config) : Machine System Move where
  init := Started cfg
  step := Moved cfg

section Labels

variable {cfg : Config} {st st' : System} {m : Move}

theorem dPop_driven {s s' : Adapter} (h : s.act cfg .dPop = .ok s') :
    s.dPop = .ok (s.driven, s') := by
  obtain ⟨msg, hs⟩ := dPop_of_act h
  unfold Adapter.driven
  rw [hs]
  rfl

/-- Whatever is labelled is a step. -/
theorem Moved.step (h : Moved cfg st m st') : Step cfg st st' := by
  cases h with
  | dFire msg hw => exact .dFire st msg hw
  | bFire msg hw => exact .bFire st msg hw
  | act a s' hd hk hw hs =>
      cases a with
      | a b =>
          by_cases hb : b.IsAcquire
          · have hstep := Step.acquire st b s' (hd rfl) (hk hb) hs
            unfold System.turned Client.sent
            simp only [if_pos hb]
            exact hstep
          · have hstep := Step.uncached st b s' (hd rfl) (not_or.mp hb) hs
            unfold System.turned Client.sent
            simp only [if_neg hb]
            exact hstep
      | c b => exact .respond st b s' (hd rfl) hk hs
      | e sink => exact .grantAck st sink s' (hd rfl) hs
      | dPop => exact .dPop st _ s' (hd rfl) hw (dPop_driven hs)
      | bPop =>
          cases hs
          exact .bPop st (hd rfl) hw
      | probeBlock addr =>
          cases hs
          exact .probeBlock st addr
      | hostInterface => exact .hostInterface st s' (hd rfl) hs
      | stop =>
          cases hs
          exact .stop st
      | dataRetriever => exact .dataRetriever st s' hs

/-- Every step has a label. -/
theorem exists_moved (h : Step cfg st st') : ∃ m, Moved cfg st m st' := by
  have hturn : ∀ (a : Action) (s' : Adapter), (a.driven = true → st.adapter.drive = true) →
      st.client.May cfg a → st.Ready a → st.adapter.act cfg a = .ok s' → st.turned cfg a s' = st' →
      ∃ m, Moved cfg st m st' :=
    fun a s' hd hk hw hs he => ⟨.act a, he ▸ .act st a s' hd hk hw hs⟩
  cases h with
  | uncached b s' hd hb hs =>
      have hb' : ¬ b.IsAcquire := not_or.mpr hb
      refine hturn (.a b) s' (fun _ => hd) (fun h => absurd h hb') trivial hs ?_
      unfold System.turned Client.sent
      simp only [if_neg hb']
      rfl
  | acquire b s' hd hb hs =>
      have hb' : b.IsAcquire := hb.opcode
      refine hturn (.a b) s' (fun _ => hd) (fun _ => hb) trivial hs ?_
      unfold System.turned Client.sent
      simp only [if_pos hb']
      rfl
  | respond b s' hd hb hs => exact hturn (.c b) s' (fun _ => hd) hb trivial hs rfl
  | grantAck sink s' hd hs => exact hturn (.e sink) s' (fun _ => hd) trivial trivial hs rfl
  | dPop msg s' hd hw hs =>
      have hdriven : st.adapter.driven = msg := by
        unfold Adapter.driven
        rw [hs]
        rfl
      have hact : st.adapter.act cfg .dPop = .ok s' := by
        unfold Adapter.act
        rw [hs]
        rfl
      refine hturn .dPop s' (fun _ => hd) trivial hw hact ?_
      rw [← hdriven]
      rfl
  | dFire msg hw => exact ⟨.dFire, .dFire st msg hw⟩
  | bPop hd hw => exact hturn .bPop _ (fun _ => hd) trivial hw rfl rfl
  | bFire msg hw => exact ⟨.bFire, .bFire st msg hw⟩
  | probeBlock addr =>
      exact hturn (.probeBlock addr) _ (absurd · Bool.false_ne_true) trivial trivial rfl rfl
  | hostInterface s' hd hs => exact hturn .hostInterface s' (fun _ => hd) trivial trivial hs rfl
  | stop => exact hturn .stop _ (absurd · Bool.false_ne_true) trivial trivial rfl rfl
  | dataRetriever s' hs =>
      exact hturn .dataRetriever s' (absurd · Bool.false_ne_true) trivial trivial hs rfl

/-- The labels leave the steps as they are. -/
theorem exists_moved_iff : (∃ m, Moved cfg st m st') ↔ Step cfg st st' :=
  ⟨fun ⟨_, h⟩ => h.step, exists_moved⟩

/-- A run leads to a reachable state. -/
theorem reachable_of_trace {tr : List (System × Move × System)} (h : (system cfg).Trace tr st) :
    Reachable cfg st := by
  induction h with
  | start st h => exact .start st h
  | step m st' _ hs ih => exact .step _ _ ih (Moved.step hs)

end Labels

/-! ## 2. The line of requests -/

theorem Adapter.pending_of_get {s : Adapter} {src : Nat} {x : Option Callback}
    (h : s.bCallback.cMap.get? src = some x) : s.pending src = x := by
  unfold Adapter.pending Dict.getD
  rw [h]
  rfl

/-- **A request comes to the line**: its probe is sent, or it waits. -/
inductive Asked (s s' : Adapter) (r : Retrieve) : Prop where
  | sent (hp : s.pending 0 = none) (hq : s.bSrcs.eventQueue = [])
      (hp' : s'.pending 0 = some r.callback) (hq' : s'.bSrcs.eventQueue = [])
      (hb : s'.bQueue = s.bQueue ++ [r.message 0])
  | waits (hp : s.pending 0 ≠ none) (hp' : s'.pending 0 = s.pending 0)
      (hq' : s'.bSrcs.eventQueue = s.bSrcs.eventQueue ++ [r]) (hb : s'.bQueue = s.bQueue)

/-- **What a turn does to the line.** -/
inductive Line (cfg : Config) (s s' : Adapter) (a : Action) : Prop where
  | request (r : Retrieve) (ha : ∀ b, a ≠ .c b) (hs : Asked s s' r)
  | answered (b : CBeat) (c : Callback) (more : List Retrieve) (ha : a = .c b)
      (hf : s.finishes cfg b = true) (hsrc : b.source = 0) (hp : s.pending 0 = some c)
      (hc : more.map (·.callback) = c.requests) (haddr : ∀ r ∈ more, c.nextAddr = some r.addr)
      (hp' : s'.pending 0 = (s.bSrcs.eventQueue ++ more).head?.map (·.callback))
      (hq' : s'.bSrcs.eventQueue = (s.bSrcs.eventQueue ++ more).tail)
      (hb : s'.bQueue = s.bQueue ++ ((s.bSrcs.eventQueue ++ more).head?.map (·.message 0)).toList)
  | quiet (hf : ∀ b, a = .c b → s.finishes cfg b = false) (hp' : s'.pending 0 = s.pending 0)
      (hq' : s'.bSrcs.eventQueue = s.bSrcs.eventQueue)
      (hb : s'.bQueue = s.bQueue ∨ a = .bPop ∧ s'.bQueue = s.bQueue.tail)

section Lines

variable {cfg : Config} {s s' : Adapter} {a : Action}

/-- The one source. -/
theorem eq_zero_of_get {hold : Option Nat} (h : ServerOk [0] s hold) {src : Nat}
    {x : Option Callback} (hx : s.bCallback.cMap.get? src = some x) : src = 0 :=
  List.mem_singleton.mp (h.tables.mem_ids hx)

theorem SameService.pending {s₁ : Adapter} (h : SameService s s₁) (src : Nat) :
    s₁.pending src = s.pending src := by
  unfold Adapter.pending
  rw [h.bCallback]

/-- While no source is free, a callback waits. -/
theorem pending_of_busy (h : ServerOk [0] s none) (hfree : s.bSrcs.freeList = []) :
    s.pending 0 ≠ none := by
  intro hn
  have hmem : (0 : Nat) ∈ s.bCallback.cMap.keys := by
    rw [h.keys]
    exact List.mem_singleton_self 0
  obtain ⟨x, hx⟩ := Dict.get?_isSome_iff.mpr hmem
  rw [Adapter.pending_of_get hx] at hn
  have hin := (h.free 0).mpr ⟨hn ▸ hx, fun e => by cases e⟩
  rw [hfree] at hin
  cases hin

theorem retrieveBlock_asked (h : ServerOk [0] s none) {s₀ s₁ : Adapter} {c : Callback}
    {param size addr mask : Nat} (h₀ : SameService s s₀)
    (hreq : s₀.retrieveBlock c param size addr mask = .ok s₁) (h₁ : SameService s₁ s') :
    Asked s s' ⟨.probeBlock, c, param, size, addr, mask⟩ := by
  have hok₀ := Adapter.serverOk_congr h h₀.bSrcs h₀.bCallback
  obtain ⟨s₂, hs₂, hrequested, _⟩ := Adapter.retrieveBlock_requested hok₀ c param size addr mask
  obtain rfl : s₁ = s₂ := Except.ok.inj (hreq.symm.trans hs₂)
  cases hrequested with
  | sent src hs he =>
      obtain rfl := eq_zero_of_get hok₀ ((hok₀.free src).mp hs.free).1
      refine .sent ?_ (h₀.bSrcs ▸ he) ?_ ?_ ?_
      · rw [← h₀.pending]
        exact hok₀.pending_free hs.free
      · rw [h₁.pending]
        exact Adapter.pending_of_get (by rw [hs.cMap, if_pos rfl])
      · rw [h₁.bSrcs, hs.eventQueue, he]
      · rw [h₁.bQueue, hs.bQueue, h₀.bQueue]
  | waits hfree hs =>
      subst hs
      refine .waits ?_ ((h₁.pending 0).trans (h₀.pending 0)) ?_ (h₁.bQueue.trans h₀.bQueue)
      · rw [← h₀.pending]
        exact pending_of_busy hok₀ hfree
      · rw [h₁.bSrcs, ← h₀.bSrcs]
        rfl

theorem answer_line (h : ServerOk [0] s none) {b : CBeat} (hf : s.finishes cfg b = true)
    (hr : Answers cfg s s' b) : Line cfg s s' (.c b) := by
  obtain ⟨s₀, s₃, h₀, _, hans, h₃, _⟩ := hr.steps
  have hok₀ := Adapter.serverOk_congr h h₀.bSrcs h₀.bCallback
  obtain ⟨c, hc⟩ := Adapter.answerProbe_pending hok₀ hans
  have hsrc := eq_zero_of_get hok₀ hc
  obtain ⟨⟨s₁, hcalled, hok₁, _, hrel⟩, hok₃⟩ := (Adapter.answerProbe_answered hok₀ hc).2 s₃ hans
  have hhold := Adapter.serverOk_taken hok₀ hc
  rw [hsrc] at hc hcalled hok₁ hrel hhold
  have hp : s.pending 0 = some c := by
    rw [← h₀.pending]
    exact Adapter.pending_of_get hc
  -- what the callback asks for has to wait: its own source is not free yet
  have hmore : ∃ more : List Retrieve, more.map (·.callback) = c.requests ∧
      (∀ r ∈ more, c.nextAddr = some r.addr) ∧
      s₁.bSrcs.eventQueue = s.bSrcs.eventQueue ++ more ∧ s₁.bQueue = s.bQueue := by
    cases hcalled with
    | quiet hreq hsrcs _ hq =>
        refine ⟨[], hreq.symm, fun r hr => (by cases hr), ?_, hq.trans h₀.bQueue⟩
        rw [hsrcs, List.append_nil, ← h₀.bSrcs]
        rfl
    | request r hreq haddr hs =>
        cases hs with
        | sent src hs _ =>
            obtain ⟨hget, hne⟩ := (hhold.free src).mp hs.free
            exact absurd (congrArg some (eq_zero_of_get hhold hget).symm) hne
        | waits _ hs =>
            subst hs
            refine ⟨[r], hreq.symm, List.forall_mem_singleton.mpr haddr, ?_, h₀.bQueue⟩
            rw [← h₀.bSrcs]
            rfl
  obtain ⟨more, hmap, haddr, hq₁, hb₁⟩ := hmore
  refine .answered b c more rfl hf hsrc hp hmap haddr ?_ ?_ ?_
  · rw [h₃.pending, ← hq₁]
    cases hrel with
    | idle he hs =>
        rw [he]
        refine hok₃.pending_free ?_
        rw [hs]
        exact List.mem_append_right _ (List.mem_singleton_self 0)
    | next r rest he hs =>
        rw [he]
        refine Adapter.pending_of_get (x := some r.callback) ?_
        rw [hs.cMap, if_pos rfl]
  · rw [h₃.bSrcs, ← hq₁]
    cases hrel with
    | idle he hs =>
        rw [hs, he]
        rfl
    | next r rest he hs =>
        rw [hs.eventQueue, he]
        rfl
  · rw [h₃.bQueue, ← hq₁, ← hb₁]
    cases hrel with
    | idle he hs =>
        rw [hs, he]
        exact (List.append_nil _).symm
    | next r rest he hs =>
        rw [hs.bQueue, he]
        rfl

theorem act_line (h : ServerOk [0] s none) (hs : s.act cfg a = .ok s') : Line cfg s s' a := by
  by_cases hpop : a = .bPop
  · subst hpop
    cases Adapter.act_turn hs with
    | request addr ha hr => cases ha
    | answer b ha hb hr => cases ha
    | quiet ha hb hsrcs hcall hq =>
        refine .quiet hb ?_ (by rw [hsrcs]) (hq.imp_right fun hq => ⟨rfl, hq⟩)
        unfold Adapter.pending
        rw [hcall]
  cases Adapter.act_serves hs hpop with
  | request addr ha hr =>
      obtain ⟨s₀, s₁, c, param, size, mask, h₀, hreq, h₁, _⟩ := hr.steps
      refine .request _ (fun b hb => ?_) (retrieveBlock_asked h h₀ hreq h₁)
      rw [hb] at ha
      cases ha
  | answer b ha hb hr =>
      subst ha
      exact answer_line h hb hr
  | quiet ha hb hsame =>
      exact .quiet hb (hsame.pending 0) (by rw [hsame.bSrcs]) (.inl hsame.bQueue)

end Lines

/-- The tables of the probes are in order in every reachable state. -/
theorem reachable_server {cfg : Config} {st : System} (h : Reachable cfg st) :
    ServerOk [0] st.adapter none := by
  have hlog : ∃ log, Probing cfg [0] st.adapter log := by
    refine h.inv (I := fun st => ∃ log, Probing cfg [0] st.adapter log) (fun st h => ?_)
      fun st st' h hs => ?_
    · obtain ⟨memory, ongoingTlc, probe, probeEn, probeAddr, σ, random, rfl⟩ := h
      exact starts_probing ⟨memory, ongoingTlc, probe, probeEn, probeAddr, σ, random, rfl⟩
    · obtain ⟨m, hm⟩ := exists_moved hs
      cases hm with
      | act a s' _ _ _ hact =>
          obtain ⟨log, h⟩ := h
          exact Adapter.act_probing (List.nodup_singleton 0) h hact
      | dFire => exact h
      | bFire => exact h
  obtain ⟨log, hlog⟩ := hlog
  exact (hlog.logOk (List.nodup_singleton 0)).server

/-! ## 3. One probe at a time -/

/-- The answer with data that the client is sending, by its first beat. -/
def Client.answering (k : Client) : Option CBeat :=
  k.burst.bind fun x => if x.1.opcode = .probeAckData then some x.1 else none

/-- The probes that the client has to answer, or to finish answering. -/
def Client.load (k : Client) : Nat := k.probes.length + k.answering.toList.length

/-- The probes on their way to the client, and those that it has not answered yet. -/
def System.inFlight (st : System) : List BMessage :=
  st.adapter.bQueue ++ st.bWire.toList ++ st.client.probes

/-- **One probe for a callback that waits**: it is on its way to the client, the client has it, or is
    sending the answer. There is no other probe. -/
def OneProbe (st : System) : Prop :=
  st.inFlight.length + st.client.answering.toList.length = (st.adapter.pending 0).toList.length

section Probes

variable {cfg : Config} {st st' : System} {m : Move} {b : CBeat}

theorem Client.respond_probes (k : Client) : (k.respond cfg b).probes.Sublist k.probes := by
  unfold Client.respond
  split
  · exact List.Sublist.refl _
  · show List.Sublist (if _ then _ else _) _
    split
    · exact List.eraseP_sublist
    · exact List.Sublist.refl _

/-- With the last beat of an answer the client has one probe less. -/
theorem respond_load (h : Inv cfg st) (hb : st.client.MayRespond cfg b) :
    (st.client.respond cfg b).load + (if st.adapter.finishes cfg b then 1 else 0) =
      st.client.load := by
  have hburst := h.burst
  unfold BurstOk at hburst
  unfold Client.MayRespond at hb
  unfold Client.load Client.answering Client.respond Adapter.finishes
  cases hk : st.client.burst with
  | none =>
      rw [hk] at hb hburst
      simp only at hb hburst
      rw [hburst]
      obtain ⟨_, hop | ⟨hop, p, hp, hans⟩⟩ := hb
      · -- a release has nothing to do with probes
        rcases hop with hop | hop
        · simp [hop, Client.hasData]
        · by_cases hlen : cfg.burstLen b.size = 1
          · simp [hop, Client.hasData, hlen]
          · simp [hop, Client.hasData, hlen]
      · have hlen := List.length_eraseP_of_mem hp (p := fun p => decide (Client.Answers cfg b p))
          (by simpa using hans)
        have hpos : 0 < st.client.probes.length := List.length_pos_of_mem hp
        have hone : (Dict.empty : Dict Nat Nat).getD b.source 0 = 0 := rfl
        rcases hop with hop | hop
        · simp [hop, Client.hasData, hlen]
          omega
        · by_cases hl : cfg.burstLen b.size = 1
          · simp [hop, Client.hasData, hlen, hl, hone]
            omega
          · have hl' : ¬ 1 = cfg.burstLen b.size := fun e => hl e.symm
            simp [hop, Client.hasData, hlen, hl, hl', hone]
            omega
  | some x =>
      obtain ⟨b₀, n⟩ := x
      rw [hk] at hb hburst
      simp only at hb hburst
      obtain ⟨hop, _, _, hsrc, _⟩ := hb
      obtain ⟨ho, _, hdata⟩ := hburst
      rw [ho, hsrc, counts_getD, hop]
      by_cases hlast : n + 1 = cfg.burstLen b.size
      · cases hop₀ : b₀.opcode <;> simp_all [Client.hasData]
      · cases hop₀ : b₀.opcode <;> simp_all [Client.hasData]

/-- Only the answers of the client change what it has to answer. -/
theorem Client.sent_load (k : Client) {a : Action} (ha : ∀ b, a ≠ .c b) :
    (k.sent cfg a).probes = k.probes ∧ (k.sent cfg a).burst = k.burst := by
  unfold Client.sent
  split
  · split
    · exact ⟨rfl, rfl⟩
    · exact ⟨rfl, rfl⟩
  · exact absurd rfl (ha _)
  · exact ⟨rfl, rfl⟩

/-- The probes whose answer ends with the turn. -/
def Adapter.ended (cfg : Config) (s : Adapter) : Action → Nat
  | .c b => if s.finishes cfg b then 1 else 0
  | _ => 0

theorem sent_load (h : Inv cfg st) {a : Action} (hk : st.client.May cfg a) :
    (st.client.sent cfg a).load + st.adapter.ended cfg a = st.client.load := by
  have hsame : (∀ b, a ≠ .c b) → (st.client.sent cfg a).load = st.client.load := by
    intro ha
    obtain ⟨hp, hb⟩ := @Client.sent_load cfg st.client a ha
    unfold Client.load Client.answering
    rw [hp, hb]
  cases a with
  | c b => exact respond_load h hk
  | _ => exact hsame fun b hb => by cases hb

theorem oneProbe_bPop (h : OneProbe st) (hw : st.bWire = none) {k : Client}
    (hk : k = st.client) :
    OneProbe { st with adapter := st.adapter.bPop.2, bWire := st.adapter.bPop.1, client := k } := by
  subst hk
  have hp : st.adapter.bPop.2.pending 0 = st.adapter.pending 0 := by
    unfold Adapter.bPop
    split <;> rfl
  unfold OneProbe System.inFlight at h ⊢
  rw [hw] at h
  simp only [hp]
  unfold Adapter.bPop
  cases hq : st.adapter.bQueue with
  | nil =>
      rw [hq] at h
      simpa [hq] using h
  | cons msg q =>
      rw [hq] at h
      simp at h ⊢
      omega

theorem oneProbe_dFire (h : OneProbe st) (msg : DMessage) :
    OneProbe { st with client := st.client.receive msg, dWire := none } := by
  have hsame : (st.client.receive msg).probes = st.client.probes ∧
      (st.client.receive msg).burst = st.client.burst := by
    unfold Client.receive
    split
    · split
      · split <;> exact ⟨rfl, rfl⟩
      · exact ⟨rfl, rfl⟩
    · exact ⟨rfl, rfl⟩
  unfold OneProbe System.inFlight Client.answering at h ⊢
  simp only [hsame.1, hsame.2]
  exact h

/-- What counts is in the queue, on the wires, or with the client. -/
theorem System.flight_length (st : System) :
    st.inFlight.length + st.client.answering.toList.length =
      st.adapter.bQueue.length + st.bWire.toList.length + st.client.load := by
  unfold System.inFlight Client.load
  rw [List.length_append, List.length_append]
  omega

/-- A turn of the adapter that is not a pop leaves the wires of channel B. -/
theorem turned_flight_length {a : Action} (ha : a ≠ .bPop) (s' : Adapter) :
    (st.turned cfg a s').inFlight.length + (st.turned cfg a s').client.answering.toList.length =
      s'.bQueue.length + st.bWire.toList.length + (st.client.sent cfg a).load := by
  rw [System.flight_length]
  unfold System.turned
  rw [if_neg ha]

theorem oneProbe_act (h : OneProbe st) (hi : Inv cfg st) (hok : ServerOk [0] st.adapter none)
    {a : Action} {s' : Adapter} (ha : a ≠ .bPop) (hk : st.client.May cfg a)
    (hs : st.adapter.act cfg a = .ok s') : OneProbe (st.turned cfg a s') := by
  have hload := sent_load hi hk
  unfold OneProbe at h ⊢
  rw [st.flight_length] at h
  rw [turned_flight_length ha]
  show _ = (s'.pending 0).toList.length
  cases act_line hok hs with
  | request r hc hr =>
      have hsame : (st.client.sent cfg a).load = st.client.load := by
        cases a with
        | c b => exact absurd rfl (hc b)
        | _ => exact hload
      rw [hsame]
      cases hr with
      | sent hp _ hp' _ hb =>
          rw [hp] at h
          rw [hp', hb]
          simp only [Option.toList_none, Option.toList_some, List.length_nil, List.length_singleton,
            List.length_append] at h ⊢
          omega
      | waits _ hp' _ hb =>
          rw [hp', hb]
          exact h
  | answered b c more hc hf _ hp _ _ hp' _ hb =>
      subst hc
      simp only [Adapter.ended, hf, if_true] at hload
      rw [hp] at h
      rw [hp', hb]
      cases (st.adapter.bSrcs.eventQueue ++ more).head? with
      | none =>
          simp only [Option.map_none, Option.toList_none, Option.toList_some, List.length_nil,
            List.length_singleton, List.append_nil] at h ⊢
          omega
      | some r =>
          simp only [Option.map_some, Option.toList_some, List.length_singleton,
            List.length_append] at h ⊢
          omega
  | quiet hf hp' _ hb =>
      have hsame : (st.client.sent cfg a).load = st.client.load := by
        cases a with
        | c b =>
            simp only [Adapter.ended, hf b rfl] at hload
            exact hload
        | _ => exact hload
      rw [hp', hsame, hb.resolve_right fun hn => ha hn.1]
      exact h

/-- **Every step keeps it at one probe.** -/
theorem OneProbe.moved (h : OneProbe st) (hi : Inv cfg st) (hok : ServerOk [0] st.adapter none)
    (hm : Moved cfg st m st') : OneProbe st' := by
  cases hm with
  | dFire msg hw => exact oneProbe_dFire h msg
  | bFire msg hw =>
      unfold OneProbe System.inFlight at h ⊢
      rw [hw] at h
      simp [Client.answering] at h ⊢
      omega
  | act a s' hd hk hw hs =>
      by_cases ha : a = .bPop
      · subst ha
        cases hs
        exact oneProbe_bPop h hw rfl
      · exact oneProbe_act h hi hok ha hk hs

/-- A probe on its way was on its way before, or is new in the queue. -/
theorem inFlight_moved (hok : ServerOk [0] st.adapter none) (hm : Moved cfg st m st')
    {msg : BMessage} (hmsg : msg ∈ st'.inFlight) :
    msg ∈ st.inFlight ∨ msg ∈ st'.adapter.bQueue.drop st.adapter.bQueue.length := by
  unfold System.inFlight at hmsg ⊢
  rw [List.mem_append, List.mem_append] at hmsg ⊢
  cases hm with
  | dFire msg' hw =>
      have hsame : (st.client.receive msg').probes = st.client.probes := by
        unfold Client.receive
        split
        · split
          · split <;> rfl
          · rfl
        · rfl
      rw [hsame] at hmsg
      exact .inl hmsg
  | bFire msg' hw =>
      rw [hw]
      simp at hmsg ⊢
      tauto
  | act a s' hd hk hw hs =>
      have hprobes : msg ∈ (st.client.sent cfg a).probes → msg ∈ st.client.probes := by
        intro h
        cases a with
        | c b => exact (@Client.respond_probes cfg b st.client).subset h
        | _ =>
            rw [(@Client.sent_load cfg st.client _ (by intro b hb; cases hb)).1] at h
            exact h
      by_cases ha : a = .bPop
      · subst ha
        cases hs
        have hq : ∀ x, x ∈ st.adapter.bPop.2.bQueue ∨ x ∈ st.adapter.bPop.1.toList →
            x ∈ st.adapter.bQueue := by
          intro x hx
          unfold Adapter.bPop at hx
          cases hq : st.adapter.bQueue with
          | nil => simp [hq] at hx
          | cons y q =>
              rw [hq] at hx
              simp at hx ⊢
              tauto
        rcases hmsg with (h | h) | h
        · exact .inl (.inl (.inl (hq msg (.inl h))))
        · exact .inl (.inl (.inl (hq msg (.inr h))))
        · exact .inl (.inr (hprobes h))
      · have hwire : (st.turned cfg a s').bWire = st.bWire := if_neg ha
        rw [hwire] at hmsg
        rcases hmsg with (h | h) | h
        · change msg ∈ s'.bQueue at h
          rcases Adapter.act_probed hok hs with ⟨⟨new, hnew, _⟩, _⟩ | ⟨_, htail⟩
          · show _ ∨ msg ∈ s'.bQueue.drop _
            rw [hnew] at h ⊢
            rw [List.drop_left]
            exact (List.mem_append.mp h).imp (fun h => .inl (.inl h)) id
          · rw [htail] at h
            exact .inl (.inl (.inl (List.mem_of_mem_tail h)))
        · exact .inl (.inl (.inr h))
        · exact .inl (.inr (hprobes h))

theorem started_oneProbe (h : Started cfg st) : OneProbe st := by
  obtain ⟨memory, ongoingTlc, probe, probeEn, probeAddr, σ, random, rfl⟩ := h
  rfl

theorem reachable_oneProbe (h : Reachable cfg st) : OneProbe st := by
  induction h with
  | start st h => exact started_oneProbe h
  | step st st' h hs ih =>
      obtain ⟨m, hm⟩ := exists_moved hs
      exact ih.moved (reachable_inv h) (reachable_server h) hm

/-- **No probe is lost or duplicated.** As long as the callback of a probe is in the table, there is
    one probe that is queued, on the wires or with the client, or the client is sending the data of
    the answer; and without a callback there is none. -/
theorem probe_accounted (h : Reachable cfg st) :
    (st.adapter.pending 0 = none → st.inFlight = [] ∧ st.client.answering = none) ∧
    (st.adapter.pending 0 ≠ none →
      (∃ p, st.inFlight = [p] ∧ st.client.answering = none) ∨
      st.inFlight = [] ∧ ∃ b, st.client.answering = some b) := by
  have hone := reachable_oneProbe h
  unfold OneProbe at hone
  constructor
  · intro hp
    rw [hp] at hone
    have hlen : st.inFlight.length = 0 ∧ st.client.answering.toList.length = 0 :=
      Nat.add_eq_zero_iff.mp hone
    exact ⟨List.length_eq_zero_iff.mp hlen.1, Option.toList_eq_nil_iff.mp
      (List.length_eq_zero_iff.mp hlen.2)⟩
  · intro hp
    obtain ⟨c, hc⟩ := Option.ne_none_iff_exists'.mp hp
    rw [hc] at hone
    cases hans : st.client.answering with
    | none =>
        rw [hans] at hone
        obtain ⟨p, hp⟩ := List.length_eq_one_iff.mp hone
        exact .inl ⟨p, hp, rfl⟩
    | some b =>
        rw [hans] at hone
        exact .inr ⟨List.length_eq_zero_iff.mp (Nat.succ.inj hone), b, rfl⟩

end Probes

/-! ## 4. Blocks -/

/-- The client holds and acquires whole blocks. -/
structure Client.Aligned (cfg : Config) (k : Client) : Prop where
  held : ∀ blk, k.held blk ≠ .N → cfg.blockAddr blk = blk
  acquires : ∀ src a, k.acquires src = some a → cfg.blockAddr a.block = a.block

section Blocks

variable {cfg : Config} {st st' : System} {m : Move} {k : Client}

theorem Config.blockAddr_blockAddr (addr : Nat) :
    cfg.blockAddr (cfg.blockAddr addr) = cfg.blockAddr addr := by
  unfold Config.blockAddr Config.blockSize
  rw [ldiff_low, ldiff_low, Nat.mul_div_cancel _ (Nat.two_pow_pos _)]

theorem Client.Aligned.sent (h : k.Aligned cfg) (a : Action) : (k.sent cfg a).Aligned cfg := by
  unfold Client.sent
  split
  · split
    · refine ⟨h.held, fun src a ha => ?_⟩
      unfold Client.acquire at ha
      simp only [Function.update_apply] at ha
      split at ha
      · cases ha
        exact Config.blockAddr_blockAddr _
      · exact h.acquires src a ha
    · exact h
  · unfold Client.respond
    split
    · exact ⟨h.held, h.acquires⟩
    · refine ⟨fun blk hne => ?_, h.acquires⟩
      simp only [Function.update_apply] at hne
      split at hne
      · rename_i he
        rw [he]
        exact Config.blockAddr_blockAddr _
      · exact h.held blk hne
  · exact h

theorem Client.Aligned.receive (h : k.Aligned cfg) (msg : DMessage) :
    (k.receive msg).Aligned cfg := by
  unfold Client.receive
  split
  · split
    · rename_i a ha
      split
      · refine ⟨fun blk hne => ?_, fun src a' ha' => ?_⟩
        · simp only [Function.update_apply] at hne
          split at hne
          · rename_i he
            rw [he]
            exact h.acquires _ _ ha
          · exact h.held blk hne
        · simp only [Function.update_apply] at ha'
          split at ha'
          · cases ha'
          · exact h.acquires src a' ha'
      · refine ⟨h.held, fun src a' ha' => ?_⟩
        simp only [Function.update_apply] at ha'
        split at ha'
        · cases ha'
          exact h.acquires _ a ha
        · exact h.acquires src a' ha'
    · exact h
  · exact h

theorem reachable_aligned (h : Reachable cfg st) : st.client.Aligned cfg := by
  refine h.inv (I := fun st => st.client.Aligned cfg) (fun st h => ?_) fun st st' h hs => ?_
  · obtain ⟨memory, ongoingTlc, probe, probeEn, probeAddr, σ, random, rfl⟩ := h
    exact ⟨fun blk hne => absurd rfl hne, fun src a ha => by cases ha⟩
  · obtain ⟨m, hm⟩ := exists_moved hs
    cases hm with
    | act a => exact h.sent a
    | dFire msg => exact h.receive msg
    | bFire => exact ⟨h.held, h.acquires⟩

end Blocks

end Difuzz.TileLink
