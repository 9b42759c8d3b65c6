/-
  File:      DifuzzRtl/TileLink/Flush.lean
  Subject:   What the probes at the end of a run do to the client, over a whole run.

  * `Quiet`, `Running` -- the client sends no Acquire, and with the answer to a probe it can no longer
    write the block: no block becomes TRUNK.
  * `Stage` -- where the drain is: its probe is with the client, it waits in the line, or it is over
    (`Stage.moved`).
  * `drain_flushes` -- when `drive` is cleared, every block has been probed once, and the client can
    write none; `drain_goes_on` -- until then there is a probe for the client to answer.
  * `returned_word` -- a word that the client gives back stays until it is written again.
-/
import DifuzzRtl.TileLink.Drain

namespace Difuzz.TileLink

/-! ## 1. The client while the drain runs -/

/-- **The client at the end of a run**: it acquires nothing, and a block that it could write and is
    probed for, it can then no longer write. -/
def Quiet (cfg : Config) (st : System) : Move → Prop
  | .act (.a b) => ¬ b.IsAcquire
  | .act (.c b) => st.client.burst = none → b.opcode = .probeAck ∨ b.opcode = .probeAckData →
      st.client.held (cfg.blockAddr b.address) = .T → b.param = TtoB ∨ b.param = TtoN
  | _ => True

/-- A state after `probe_blocks` has been called, with no Acquire outstanding. -/
structure Running (cfg : Config) (st : System) : Prop where
  reach : Reachable cfg st
  settled : ∀ src, st.client.acquires src = none
  called : st.adapter.retriever = false

section Client

variable {cfg : Config} {st st' : System} {m : Move} {b : CBeat} {s' : Adapter}

theorem no_acquires (h : ∀ src, st.client.acquires src = none) (src blk cap : Nat) :
    ¬ st.client.Acquires src blk cap := by
  intro ha
  obtain ⟨a, ha, _⟩ := ha
  rw [h src] at ha
  cases ha

theorem receive_settled (h : ∀ src, st.client.acquires src = none) (msg : DMessage) :
    st.client.receive msg = st.client := by
  unfold Client.receive
  rw [h]
  split <;> rfl

/-- What a quiet step of the system keeps: no Acquire is outstanding, the client does not get a block to
    write, and no block becomes TRUNK. -/
structure Settles (st st' : System) : Prop where
  acquires : ∀ src, st'.client.acquires src = none
  held : ∀ blk, st'.client.held blk = .T → st.client.held blk = .T
  trunk : ∀ blk, st'.adapter.perm blk = .trunk → st.adapter.perm blk = .trunk

theorem settles_of_shuffles (hk : ∀ src, st.client.acquires src = none) {a : Action}
    (hc : st.client.sent cfg a = st.client) (hs : Shuffles st.adapter s') :
    Settles st (st.turned cfg a s') := by
  refine ⟨fun src => ?_, fun blk hT => ?_, fun blk hT => (hs.perm blk).symm.trans hT⟩
  · show (st.client.sent cfg a).acquires src = none
    rw [hc]
    exact hk src
  · change (st.client.sent cfg a).held blk = .T at hT
    rwa [hc] at hT

/-- A pop hands out no block: a grant has no Acquire to answer. -/
theorem dPop_trunk (hi : Inv cfg st) (hk : ∀ src, st.client.acquires src = none)
    {msg : Option DMessage} (hs : st.adapter.dPop = .ok (msg, s')) {blk : Nat}
    (hT : s'.perm blk = .trunk) : st.adapter.perm blk = .trunk := by
  by_contra hne
  have hp := Adapter.dPop_popped hs
  obtain ⟨m, rfl, hg, _⟩ := hp.trunk _ _ hi.grants hT hne
  have hbeats := hp.beats m.source
  have hleft := hi.beats m.source
  have hone : DEntry.grantBeats m.source (some m, none) = 1 := if_pos ⟨hg, rfl⟩
  unfold Client.beatsLeft at hleft
  rw [hk] at hleft
  simp only [Option.elim_none] at hleft
  omega

theorem respond_settles (hi : Inv cfg st) (hk : ∀ src, st.client.acquires src = none)
    (hb : st.client.MayRespond cfg b) (hs : st.adapter.cPortMonitor cfg b = .ok s') :
    Settles st (st.turned cfg (.c b) s') := by
  obtain ⟨n, _, hans, hres⟩ := hi.responds hb hs
  refine ⟨fun src => ?_, fun blk hT => (hans.held blk hT).1, fun blk hT => ?_⟩
  · show (st.client.respond cfg b).acquires src = none
    rw [hans.acquires]
    exact hk src
  · cases hres with
    | last _ hc _ => exact (Adapter.returnBlock_trunk ((hc.perm blk).symm.trans hT)).1
    | more _ hc _ => exact (hc.perm blk).symm.trans hT

theorem settles_moved (hr : Running cfg st) (hq : Quiet cfg st m) (hm : Moved cfg st m st') :
    Settles st st' := by
  have hi := reachable_inv hr.reach
  have hk := hr.settled
  cases hm with
  | dFire msg hw =>
      refine ⟨fun src => ?_, fun blk hT => ?_, fun blk hT => hT⟩
      · show (st.client.receive msg).acquires src = none
        rw [receive_settled hk]
        exact hk src
      · change (st.client.receive msg).held blk = .T at hT
        rwa [receive_settled hk] at hT
  | bFire msg hw => exact ⟨hk, fun blk hT => hT, fun blk hT => hT⟩
  | act a s' hd hb hw hs =>
      cases a with
      | a b =>
          have hsent : st.client.sent cfg (.a b) = st.client := if_neg hq
          exact settles_of_shuffles hk hsent ((Adapter.touch_shuffles _).trans
            (Adapter.aOpcode_shuffles (not_or.mp hq) (Adapter.aPortMonitor_ok hs)))
      | c b => exact respond_settles hi hk hb hs
      | e sink => exact settles_of_shuffles hk rfl (Adapter.ePortMonitor_shuffles hs)
      | dPop => exact ⟨hk, fun blk hT => hT, fun blk hT => dPop_trunk hi hk (dPop_driven hs) hT⟩
      | bPop =>
          cases hs
          exact settles_of_shuffles hk rfl Adapter.bPop_shuffles
      | probeBlock addr =>
          cases hs
          exact settles_of_shuffles hk rfl (Adapter.shuffles_of_keeps ⟨rfl, rfl, rfl⟩ (.refl _))
      | hostInterface => exact settles_of_shuffles hk rfl (Adapter.hostInterface_shuffles hs)
      | stop =>
          cases hs
          exact settles_of_shuffles hk rfl (Adapter.shuffles_of_keeps ⟨rfl, rfl, rfl⟩ (.refl _))
      | dataRetriever => exact settles_of_shuffles hk rfl (Adapter.dataRetriever_shuffles hs)

theorem Running.moved (h : Running cfg st) (hq : Quiet cfg st m) (hm : Moved cfg st m st') :
    Running cfg st' := by
  refine ⟨.step _ _ h.reach hm.step, (settles_moved h hq hm).acquires, ?_⟩
  cases hm with
  | act a s' _ _ _ hs =>
      by_cases ha : a = .dataRetriever
      · subst ha
        show s'.retriever = false
        rw [dataRetriever_done h.called hs]
        exact h.called
      · exact (act_flags (reachable_server h.reach) ha hs).1.trans h.called
  | dFire => exact h.called
  | bFire => exact h.called

theorem finishes_opcode {s : Adapter} (h : s.finishes cfg b = true) :
    b.opcode = .probeAck ∨ b.opcode = .probeAckData := by
  unfold Adapter.finishes at h
  split at h
  · exact .inl ‹_›
  · exact .inr ‹_›
  · cases h

/-- A beat that goes on with an answer belongs to an answer with data. -/
theorem mem_answering (hi : Inv cfg st) (hb : st.client.MayRespond cfg b)
    (hop : b.opcode = .probeAck ∨ b.opcode = .probeAckData) {b₀ : CBeat} {n : Nat}
    (hk : st.client.burst = some (b₀, n)) : b₀ ∈ st.client.answering := by
  have hburst := hi.burst
  unfold BurstOk at hburst
  unfold Client.MayRespond at hb
  rw [hk] at hb hburst
  have hdata : b₀.opcode = .probeAckData := by
    have hd := hburst.2.2
    rw [← hb.1] at hd ⊢
    rcases hop with hop | hop
    · rw [hop] at hd
      cases hd
    · exact hop
  unfold Client.answering
  rw [hk]
  exact if_pos hdata

/-- **With the end of an answer the block is not TRUNK**: the client gave it up with this answer, or
    before. -/
theorem answered_not_trunk (hr : Running cfg st) (hq : Quiet cfg st (.act (.c b)))
    (hb : st.client.MayRespond cfg b) (hs : st.adapter.cPortMonitor cfg b = .ok s')
    (hf : st.adapter.finishes cfg b = true)
    (hheld : ∀ b₀ ∈ st.client.answering, st.client.held (cfg.blockAddr b₀.address) ≠ .T) :
    s'.perm (cfg.blockAddr b.address) ≠ .trunk := by
  intro hT
  have hi := reachable_inv hr.reach
  obtain ⟨n, ho, _, hres⟩ := hi.responds hb hs
  have hop := finishes_opcode hf
  have hcount : b.opcode = .probeAckData → n + 1 = cfg.burstLen b.size := by
    intro hdata
    unfold Adapter.finishes at hf
    rw [hdata, ho, counts_getD] at hf
    exact of_decide_eq_true hf
  cases hres with
  | more hmore _ _ =>
      rcases hop with hop | hop
      · have hdata := hmore.1
        rw [hop] at hdata
        cases hdata
      · exact hmore.2 (hcount hop)
  | last _ hc _ =>
      obtain ⟨htrunk, hnot⟩ := Adapter.returnBlock_trunk ((hc.perm _).symm.trans hT)
      have hparam : ¬ (b.param = TtoB ∨ b.param = TtoN) := fun hp => hnot ⟨hp, rfl⟩
      have hmay := hb
      unfold Client.MayRespond at hb
      rcases hi.trunk _ htrunk with hheld' | hret | ⟨src, ha⟩
      · cases hk : st.client.burst with
        | none => exact hparam (hq hk hop hheld')
        | some x =>
            obtain ⟨b₀, n₀⟩ := x
            rw [hk] at hb
            have hmem := mem_answering hi hmay hop hk
            have hne := hheld b₀ hmem
            rw [← hb.2.2.2.2] at hne
            exact hne hheld'
      · obtain ⟨b₀, n₀, hk, hp, _⟩ := hret
        rw [hk] at hb
        exact hparam (hb.2.1 ▸ hp)
      · exact no_acquires hr.settled src _ _ ha

/-- The answer that the client is sending is the one it was sending, or one to a probe that it had. -/
theorem answering_respond (hb : st.client.MayRespond cfg b) {b' : CBeat}
    (h : b' ∈ (st.client.respond cfg b).answering) :
    b' ∈ st.client.answering ∨
      st.client.burst = none ∧ b' = b ∧ b.opcode = .probeAckData ∧
      ∃ p ∈ st.client.probes, Client.Answers cfg b p := by
  unfold Client.MayRespond at hb
  unfold Client.answering Client.respond at h
  unfold Client.answering
  cases hk : st.client.burst with
  | some x =>
      rw [hk] at h
      refine .inl ?_
      simp only at h
      split at h
      · cases h
      · exact h
  | none =>
      rw [hk] at hb h
      simp only at hb h
      split at h
      · have hop : b.opcode = .probeAckData := by
          by_contra hne
          simp [hne] at h
        have hb' : b' = b := by simpa [hop] using h.symm
        refine .inr ⟨rfl, hb', hop, ?_⟩
        obtain ⟨_, hrel | ⟨_, hp⟩⟩ := hb
        · rw [hop] at hrel
          rcases hrel with hrel | hrel <;> cases hrel
        · exact hp
      · cases h

end Client

/-! ## 2. The stages of the drain -/

/-- **The block `cur` is called back**: only its probe is on its way to the client, and when the client
    sends data for it, it can no longer write it. -/
structure Recall (cfg : Config) (st : System) (cur : Nat) : Prop where
  flight : ∀ p ∈ st.inFlight, p.address = cur
  answer : ∀ b ∈ st.client.answering, cfg.blockAddr b.address = cur ∧ st.client.held cur ≠ .T

/-- The address of the probe that a step sends for the drain. -/
def drained (x : System × Move × System) : List Nat :=
  if ((x.2.2.adapter.pending 0).bind Callback.chain).isSome then
    (x.2.2.adapter.bQueue.drop x.1.adapter.bQueue.length).map (·.address)
  else []

/-- **Where the drain is.** Of the blocks `toProbe`, those of `log` have been probed: the last of them
    is called back, or the next one waits in the line, or there is none left. -/
inductive Stage (cfg : Config) (toProbe log : List Nat) (st : System) : Prop where
  | sent (cur : Nat) (rest : List Nat) (hlog : toProbe = log ++ rest) (hcur : cur ∈ log)
      (hp : st.adapter.pending 0 = some (.probeBlocksRec rest)) (hq : st.adapter.waiting = [])
      (hdrive : st.adapter.drive = true) (hrecall : Recall cfg st cur)
      (htrunk : ∀ blk, st.adapter.perm blk = .trunk → blk ∈ cur :: rest)
  | waits (cur : Nat) (rest : List Nat) (hlog : toProbe = log ++ cur :: rest)
      (hp : (st.adapter.pending 0).bind Callback.chain = none)
      (hq : st.adapter.waiting = [(cur, rest)]) (hdrive : st.adapter.drive = true)
      (htrunk : ∀ blk, st.adapter.perm blk = .trunk → blk ∈ cur :: rest)
  | finished (hlog : toProbe = log) (hno : NoChain st.adapter) (hdrive : st.adapter.drive = false)
      (htrunk : ∀ blk, st.adapter.perm blk ≠ .trunk)

section Stages

variable {cfg : Config} {st st' : System} {m : Move} {b : CBeat} {cur : Nat} {rest : List Nat}
  {toProbe log : List Nat}

/-- A probe that has just been queued is the only one. -/
theorem OneProbe.recall (h : OneProbe st) {p : BMessage} (hp : p ∈ st.adapter.bQueue) :
    Recall cfg st p.address := by
  have hmem : p ∈ st.inFlight := List.mem_append_left _ (List.mem_append_left _ hp)
  have hpos := List.length_pos_of_mem hmem
  have hle : (st.adapter.pending 0).toList.length ≤ 1 := by
    cases st.adapter.pending 0 <;> simp
  unfold OneProbe at h
  refine ⟨fun p' hp' => ?_, fun b hb => ?_⟩
  · obtain ⟨x, hx⟩ := List.length_eq_one_iff.mp (show st.inFlight.length = 1 by omega)
    rw [hx] at hmem hp'
    rw [List.mem_singleton.mp hp', List.mem_singleton.mp hmem]
  · have hnone : st.client.answering.toList.length = 0 := by omega
    rw [Option.mem_def.mp hb] at hnone
    cases hnone

theorem Recall.moved (h : Recall cfg st cur) (hr : Running cfg st) (hq : Quiet cfg st m)
    (hm : Moved cfg st m st') (halign : cfg.blockAddr cur = cur)
    (hnew : st'.adapter.bQueue.drop st.adapter.bQueue.length = []) : Recall cfg st' cur := by
  have hs := settles_moved hr hq hm
  refine ⟨fun p hp => ?_, fun b hb => ?_⟩
  · rcases inFlight_moved (reachable_server hr.reach) hm hp with hp | hp
    · exact h.flight p hp
    · rw [hnew] at hp
      cases hp
  · have hold : b ∈ st.client.answering →
        cfg.blockAddr b.address = cur ∧ st'.client.held cur ≠ .T :=
      fun hb => ⟨(h.answer b hb).1, fun hT => (h.answer b hb).2 (hs.held cur hT)⟩
    cases hm with
    | dFire msg hw =>
        refine hold ?_
        change b ∈ (st.client.receive msg).answering at hb
        rwa [receive_settled hr.settled] at hb
    | bFire msg hw => exact hold hb
    | act a s' hd hk hw hact =>
        change b ∈ (st.client.sent cfg a).answering at hb
        by_cases hc : ∃ b₀, a = .c b₀
        · obtain ⟨b₀, rfl⟩ := hc
          rcases answering_respond hk hb with hb | ⟨hidle, rfl, hop, p, hp, hans⟩
          · exact hold hb
          · -- a new answer: with its first beat the client gives up what it could write
            have hblock : cfg.blockAddr b.address = cur := by
              rw [← hans.2, h.flight p (List.mem_append_right _ hp), halign]
            refine ⟨hblock, fun hT => ?_⟩
            have hparam := hq hidle (.inr hop) (hblock.symm ▸ hs.held cur hT)
            change (st.client.respond cfg b).held cur = .T at hT
            unfold Client.respond at hT
            rw [hidle] at hT
            rcases hparam with hparam | hparam
            · simp only [hparam, hblock, Function.update_self] at hT
              have hB : Held.B = .T := hT
              cases hB
            · simp only [hparam, hblock, Function.update_self] at hT
              have hN : Held.N = .T := hT
              cases hN
        · refine hold ?_
          have hburst := (@Client.sent_load cfg st.client a fun b₀ hb₀ => hc ⟨b₀, hb₀⟩).2
          unfold Client.answering at hb ⊢
          rwa [hburst] at hb

/-- The answer that ends is the one to the probe. -/
theorem Recall.answered (h : Recall cfg st cur) (hr : Running cfg st)
    (halign : cfg.blockAddr cur = cur) (hb : st.client.MayRespond cfg b)
    (hf : st.adapter.finishes cfg b = true) : cfg.blockAddr b.address = cur := by
  have hop := finishes_opcode hf
  cases hk : st.client.burst with
  | some x =>
      obtain ⟨b₀, n⟩ := x
      have hmem := mem_answering (reachable_inv hr.reach) hb hop hk
      unfold Client.MayRespond at hb
      rw [hk] at hb
      rw [hb.2.2.2.2]
      exact (h.answer b₀ hmem).1
  | none =>
      unfold Client.MayRespond at hb
      rw [hk] at hb
      obtain ⟨_, hrel | ⟨_, p, hp, hans⟩⟩ := hb
      · rcases hop with hop | hop
        · rw [hop] at hrel
          rcases hrel with hrel | hrel <;> cases hrel
        · rw [hop] at hrel
          rcases hrel with hrel | hrel <;> cases hrel
      · rw [← hans.2, h.flight p (List.mem_append_right _ hp), halign]

theorem drained_eq_nil (h : (st'.adapter.pending 0).bind Callback.chain = none) :
    drained (st, m, st') = [] := by
  unfold drained
  rw [h]
  rfl

/-- A step that does nothing for the drain leaves it where it is. -/
theorem Stage.kept (h : Stage cfg toProbe log st)
    (halign : ∀ blk ∈ toProbe, cfg.blockAddr blk = blk) (hr : Running cfg st) (hq : Quiet cfg st m)
    (hm : Moved cfg st m st') (hp : st'.adapter.pending 0 = st.adapter.pending 0)
    (hw : st'.adapter.waiting = st.adapter.waiting) (hd : st'.adapter.drive = st.adapter.drive)
    (hnew : st'.adapter.bQueue.drop st.adapter.bQueue.length = []) :
    Stage cfg toProbe (log ++ drained (st, m, st')) st' := by
  have hs := settles_moved hr hq hm
  have hnone : drained (st, m, st') = [] := by
    unfold drained
    simp only [hnew, List.map_nil, ite_self]
  rw [hnone, List.append_nil]
  cases h with
  | sent cur rest hlog hcur hp₀ hq₀ hdrive hrecall htrunk =>
      have hmem : cur ∈ toProbe := by
        rw [hlog]
        exact List.mem_append_left _ hcur
      exact .sent cur rest hlog hcur (hp.trans hp₀) (hw.trans hq₀) (hd.trans hdrive)
        (hrecall.moved hr hq hm (halign cur hmem) hnew) fun blk hT => htrunk blk (hs.trunk blk hT)
  | waits cur rest hlog hp₀ hq₀ hdrive htrunk =>
      refine .waits cur rest hlog ?_ (hw.trans hq₀) (hd.trans hdrive)
        fun blk hT => htrunk blk (hs.trunk blk hT)
      rw [hp]
      exact hp₀
  | finished hlog hno hdrive htrunk =>
      refine .finished hlog ⟨?_, hw.trans hno.waiting⟩ (hd.trans hdrive)
        fun blk hT => htrunk blk (hs.trunk blk hT)
      rw [hp]
      exact hno.pending

/-- **The next of the line is served**, and there is one request of the drain in the line. -/
theorem stage_next (line : List Retrieve) (hline : line.filterMap Retrieve.chain = [(cur, rest)])
    (hlog : toProbe = log ++ cur :: rest) (hone : OneProbe st')
    (hp : st'.adapter.pending 0 = line.head?.map (·.callback))
    (hq : st'.adapter.bSrcs.eventQueue = line.tail)
    (hb : st'.adapter.bQueue = st.adapter.bQueue ++ (line.head?.map (·.message 0)).toList)
    (hdrive : st'.adapter.drive = true)
    (htrunk : ∀ blk, st'.adapter.perm blk = .trunk → blk ∈ cur :: rest) :
    Stage cfg toProbe (log ++ drained (st, m, st')) st' := by
  cases line with
  | nil => cases hline
  | cons r line =>
      simp only [List.head?_cons, Option.map_some, List.tail_cons, Option.toList_some] at hp hq hb
      cases hr : r.chain with
      | none =>
          -- another request was before it
          rw [List.filterMap_cons_none hr] at hline
          have hnone : (st'.adapter.pending 0).bind Callback.chain = none := by
            rw [hp]
            exact Retrieve.chain_eq_none.mp hr
          rw [drained_eq_nil hnone, List.append_nil]
          refine .waits cur rest hlog hnone ?_ hdrive htrunk
          unfold Adapter.waiting
          rw [hq]
          exact hline
      | some x =>
          rw [List.filterMap_cons_some hr] at hline
          obtain ⟨rfl, hnil⟩ := List.cons.inj hline
          obtain ⟨hc, rfl⟩ := Retrieve.chain_eq_some hr
          have hone' : drained (st, m, st') = [r.addr] := by
            unfold drained
            simp only [hp, hb, hc, List.drop_left]
            rfl
          have hrecall : Recall cfg st' (r.message 0).address :=
            hone.recall (by rw [hb]; exact List.mem_append_right _ (List.mem_singleton_self _))
          rw [hone']
          refine .sent r.addr rest ?_ (List.mem_append_right _ (List.mem_singleton_self _)) ?_ ?_
            hdrive hrecall htrunk
          · rw [hlog, List.append_assoc]
            rfl
          · rw [hp, hc]
          · unfold Adapter.waiting
            rw [hq]
            exact hnil

/-- When the drain is over, it stays so. -/
theorem stage_finished {a : Action} {s' : Adapter} (hr : Running cfg st) (hlog : toProbe = log)
    (hno : NoChain st.adapter) (hoff : st.adapter.drive = false)
    (htrunk : ∀ blk, st.adapter.perm blk ≠ .trunk) (hq : Quiet cfg st (.act a))
    (hm : Moved cfg st (.act a) (st.turned cfg a s')) (ha : a ≠ .dataRetriever)
    (hact : st.adapter.act cfg a = .ok s') :
    Stage cfg toProbe (log ++ drained (st, .act a, st.turned cfg a s')) (st.turned cfg a s') := by
  have hs := settles_moved hr hq hm
  have hok := reachable_server hr.reach
  have hok' : ServerOk [0] s' none := reachable_server (hr.moved hq hm).reach
  have hno' := hno.act hok hok' ha hact
  rw [drained_eq_nil hno'.pending, List.append_nil]
  refine .finished hlog hno' ?_ fun blk hT => htrunk blk (hs.trunk blk hT)
  show s'.drive = false
  rw [(act_flags hok ha hact).2.2, hoff]
  exact ite_self _

/-- **The end of an answer.** After the one to the probe of the drain the next block is asked for, or
    the drain is over; after another one the line moves on. -/
theorem Stage.answered {s' : Adapter} {c : Callback} {more : List Retrieve}
    (h : Stage cfg toProbe log st) (halign : ∀ blk ∈ toProbe, cfg.blockAddr blk = blk)
    (hr : Running cfg st) (hq : Quiet cfg st (.act (.c b)))
    (hm : Moved cfg st (.act (.c b)) (st.turned cfg (.c b) s'))
    (hk : st.client.MayRespond cfg b) (hact : st.adapter.act cfg (.c b) = .ok s')
    (hf : st.adapter.finishes cfg b = true) (hp : st.adapter.pending 0 = some c)
    (hmap : more.map (·.callback) = c.requests) (haddr : ∀ r ∈ more, c.nextAddr = some r.addr)
    (hp' : s'.pending 0 = (st.adapter.bSrcs.eventQueue ++ more).head?.map (·.callback))
    (hq' : s'.bSrcs.eventQueue = (st.adapter.bSrcs.eventQueue ++ more).tail)
    (hb : s'.bQueue = st.adapter.bQueue ++
      ((st.adapter.bSrcs.eventQueue ++ more).head?.map (·.message 0)).toList) :
    Stage cfg toProbe (log ++ drained (st, .act (.c b), st.turned cfg (.c b) s'))
      (st.turned cfg (.c b) s') := by
  have hs := settles_moved hr hq hm
  have hone := reachable_oneProbe (hr.moved hq hm).reach
  have hdrive : s'.drive = _ :=
    (act_flags (reachable_server hr.reach) (fun hn => by cases hn) hact).2.2
  cases h with
  | finished hlog hno hoff htrunk =>
      exact stage_finished hr hlog hno hoff htrunk hq hm (fun hn => by cases hn) hact
  | waits cur rest hlog hp₀ hwait hon htrunk =>
      -- the answer was for another: the line moves on
      rw [hp] at hp₀
      have hnone : c.chain = none := hp₀
      obtain rfl : more = [] := by
        rw [Callback.requests_of_chain hnone] at hmap
        exact List.map_eq_nil_iff.mp hmap
      rw [List.append_nil] at hp' hq' hb
      refine stage_next _ hwait hlog hone hp' hq' hb ?_
        fun blk hT => htrunk blk (hs.trunk blk hT)
      show s'.drive = true
      rw [hdrive, if_neg fun hn => ?_, hon]
      rw [hp, Option.some.injEq] at hn
      rw [hn.2] at hnone
      cases hnone
  | sent cur rest hlog hcur hp₀ hwait hon hrecall htrunk =>
      obtain rfl : c = .probeBlocksRec rest := Option.some.inj (hp.symm.trans hp₀)
      have hmem : cur ∈ toProbe := by
        rw [hlog]
        exact List.mem_append_left _ hcur
      have hblock := hrecall.answered hr (halign cur hmem) hk hf
      have hleft := answered_not_trunk hr hq hk hact hf fun b₀ hb₀ => by
        rw [(hrecall.answer b₀ hb₀).1]
        exact (hrecall.answer b₀ hb₀).2
      rw [hblock] at hleft
      have htrunk' : ∀ blk, s'.perm blk = .trunk → blk ∈ rest := by
        intro blk hT
        rcases List.mem_cons.mp (htrunk blk (hs.trunk blk hT)) with rfl | hmem
        · exact absurd hT hleft
        · exact hmem
      cases rest with
      | nil =>
          obtain rfl : more = [] := List.map_eq_nil_iff.mp hmap
          rw [List.append_nil] at hp' hq' hlog
          have hno : NoChain s' := noChain_next hwait hp' hq'
          rw [drained_eq_nil hno.pending, List.append_nil]
          refine .finished hlog hno ?_ fun blk hT => by cases htrunk' blk hT
          show s'.drive = false
          rw [hdrive, if_pos ⟨if_pos hf, hp⟩]
      | cons addr rest =>
          obtain ⟨r, rfl, hcb⟩ := List.map_eq_singleton_iff.mp hmap
          have hra : addr = r.addr := Option.some.inj (haddr r (List.mem_singleton_self r))
          have hchain : r.chain = some (addr, rest) := by
            unfold Retrieve.chain
            rw [hcb, hra]
            rfl
          refine stage_next _ ?_ hlog hone hp' hq' hb ?_ htrunk'
          · unfold Adapter.waiting at hwait
            rw [List.filterMap_append, hwait, List.filterMap_cons_some hchain]
            rfl
          · show s'.drive = true
            rw [hdrive, if_neg fun hn => by rw [hp] at hn; cases hn.2]
            exact hon

/-- **What a step does to the drain.** The cases are those of the line. -/
theorem Stage.moved (h : Stage cfg toProbe log st)
    (halign : ∀ blk ∈ toProbe, cfg.blockAddr blk = blk) (hr : Running cfg st) (hq : Quiet cfg st m)
    (hm : Moved cfg st m st') : Stage cfg toProbe (log ++ drained (st, m, st')) st' := by
  have hr' := hr.moved hq hm
  have hok := reachable_server hr.reach
  have hok' := reachable_server hr'.reach
  have hkept := h.kept halign hr hq hm
  cases hm with
  | dFire msg hw => exact hkept rfl rfl rfl List.drop_length
  | bFire msg hw => exact hkept rfl rfl rfl List.drop_length
  | act a s' hd hk hw hact =>
      by_cases ha : a = .dataRetriever
      · subst ha
        obtain rfl := dataRetriever_done hr.called hact
        exact hkept rfl rfl rfl List.drop_length
      have hm := Moved.act st a s' hd hk hw hact
      cases act_line hok hact with
      | request r hc hasked =>
          have haside := Adapter.act_aside hc ha hact
          have hchain := asked_chain hok hok' haside hasked
          cases hasked with
          | sent hp hq₀ _ _ _ =>
              cases h with
              | sent _ _ _ _ hp₀ _ _ _ _ =>
                  rw [hp] at hp₀
                  cases hp₀
              | waits _ _ _ _ hwait _ _ =>
                  unfold Adapter.waiting at hwait
                  rw [hq₀] at hwait
                  cases hwait
              | finished hlog hno hoff htrunk =>
                  exact stage_finished hr hlog hno hoff htrunk hq hm ha hact
          | waits _ hp' hq' hb =>
              refine hkept hp' (waiting_append _ hchain hq') haside.drive ?_
              show s'.bQueue.drop _ = []
              rw [hb]
              exact List.drop_length
      | quiet hf hp' hq' hb =>
          have hended : st.adapter.ended cfg a = 0 := by
            cases a with
            | c b => exact if_neg (by rw [hf b rfl]; exact Bool.false_ne_true)
            | _ => rfl
          refine hkept hp' ?_ ?_ ?_
          · unfold Adapter.waiting
            exact congrArg _ hq'
          · show s'.drive = _
            rw [(act_flags hok ha hact).2.2, if_neg fun hn => by rw [hended] at hn; cases hn.1]
          · show s'.bQueue.drop _ = []
            rcases hb with hb | hb
            · rw [hb]
              exact List.drop_length
            · rw [hb.2]
              exact List.drop_eq_nil_of_le (by rw [List.length_tail]; exact Nat.sub_le _ _)
      | answered b c more hc hf _ hp hmap haddr hp' hq' hb =>
          subst hc
          exact h.answered halign hr hq hm hk hact hf hp hmap haddr hp' hq' hb

/-- The blocks that are called back are those that the adapter has as TRUNK. -/
theorem mem_lent {s : Adapter} (h : PermTable s.blockPerm) {blk : Nat} :
    blk ∈ s.lent ↔ s.perm blk = .trunk := by
  unfold Adapter.lent
  rw [List.mem_filter, decide_eq_true_iff]
  constructor
  · intro hmem
    exact (h.two blk).resolve_left hmem.2
  · intro hT
    have hne : s.perm blk ≠ .tip := by
      rw [hT]
      exact fun h => by cases h
    refine ⟨Dict.get?_isSome_iff.mp (Option.ne_none_iff_exists'.mp fun hn => hne ?_), hne⟩
    unfold Adapter.perm Dict.getD
    rw [hn]
    rfl

/-- They are blocks, not other addresses: the client has each of them, or is giving it back. -/
theorem lent_aligned (h : Reachable cfg st) (hk : ∀ src, st.client.acquires src = none) {blk : Nat}
    (hmem : blk ∈ st.adapter.lent) : cfg.blockAddr blk = blk := by
  have hT := (mem_lent (reachable_orderly h).table).mp hmem
  rcases (reachable_inv h).trunk blk hT with hheld | ⟨b₀, n, _, _, hblk⟩ | ⟨src, ha⟩
  · exact (reachable_aligned h).held blk (by rw [hheld]; exact fun h => by cases h)
  · rw [← hblk]
    exact Config.blockAddr_blockAddr _
  · exact absurd ha (no_acquires hk src _ _)

/-- `probe_blocks` starts the drain. -/
theorem stage_start (h : Reachable cfg st) (hk : ∀ src, st.client.acquires src = none)
    (hcall : st.adapter.retrieve = true ∧ st.adapter.retriever = true)
    (hm : Moved cfg st (.act .dataRetriever) st') :
    Running cfg st' ∧
    Stage cfg st.adapter.lent (drained (st, .act .dataRetriever, st')) st' := by
  have hord := reachable_orderly h
  have hno := hord.chains hcall.2
  have hon := hord.drive hcall.2
  have hreach' : Reachable cfg st' := .step _ _ h hm.step
  cases hm with
  | act _ s' _ _ _ hact =>
      rw [dataRetriever_call hcall] at hact
      have htrunk : ∀ blk, st.adapter.perm blk = .trunk → blk ∈ st.adapter.lent :=
        fun blk => (mem_lent hord.table).mpr
      cases hl : st.adapter.lent with
      | nil =>
          rw [hl] at hact htrunk
          have hover : NoChain s' ∧ s'.drive = false ∧ s'.retriever = false ∧
              s'.blockPerm = st.adapter.blockPerm := by
            cases hact
            exact ⟨⟨hno.pending, hno.waiting⟩, rfl, rfl, rfl⟩
          obtain ⟨hno', hoff, hretr, hperm⟩ := hover
          refine ⟨⟨hreach', hk, hretr⟩, ?_⟩
          rw [drained_eq_nil hno'.pending]
          refine .finished rfl hno' hoff fun blk hT => ?_
          change s'.blockPerm.getD blk .tip = .trunk at hT
          rw [hperm] at hT
          cases htrunk blk hT
      | cons cur rest =>
          rw [hl] at hact htrunk
          obtain ⟨hdrive, hretr⟩ := Adapter.retrieveBlock_flags hact
          have hperm : s'.blockPerm = st.adapter.blockPerm :=
            (Adapter.retrieveBlock_spec hact).1.blockPerm
          have htrunk' : ∀ blk, s'.perm blk = .trunk → blk ∈ cur :: rest := by
            intro blk hT
            refine htrunk blk ?_
            unfold Adapter.perm at hT ⊢
            rwa [hperm] at hT
          refine ⟨⟨hreach', hk, hretr⟩, ?_⟩
          have hreq : { st.adapter with retriever := false }.retrieveBlock (.probeBlocksRec rest) toN
              cfg.lgBlockSize cur (2 ^ cfg.bDatalen - 1) = .ok s' := hact
          have hsame : SameService st.adapter { st.adapter with retriever := false } := ⟨rfl, rfl, rfl⟩
          have hasked := retrieveBlock_asked (reachable_server h) hsame hreq (.refl s')
          cases hasked with
          | sent hp hq hp' hq' hb =>
              have hst : Stage cfg (cur :: rest) ([] ++ drained (st, .act .dataRetriever, _)) _ :=
                stage_next [_] rfl rfl (reachable_oneProbe hreach') hp' hq' (hq ▸ hb)
                  (hdrive.trans hon) htrunk'
              exact hst
          | waits hp hp' hq' hb =>
              have hnone : (s'.pending 0).bind Callback.chain = none := by
                rw [hp']
                exact hno.pending
              rw [drained_eq_nil hnone]
              refine .waits cur rest rfl hnone ?_ (hdrive.trans hon) htrunk'
              show s'.bSrcs.eventQueue.filterMap Retrieve.chain = _
              rw [hq', List.filterMap_append]
              show st.adapter.waiting ++ _ = _
              rw [hno.waiting]
              rfl

end Stages

section Runs

variable {cfg : Config} {tr₁ tr₂ : List (System × Move × System)} {st₀ st₁ st : System}

/-- Where the drain is after any run with a quiet client. -/
theorem stage_of_trace (h : (system cfg).Trace (tr₁ ++ (st₀, .act .dataRetriever, st₁) :: tr₂) st)
    (hcall : st₀.adapter.retrieve = true ∧ st₀.adapter.retriever = true)
    (hk : ∀ src, st₀.client.acquires src = none) (hq : Machine.Along (Quiet cfg) tr₂) :
    Reachable cfg st₀ ∧ Running cfg st ∧ Stage cfg st₀.adapter.lent
      (((st₀, .act .dataRetriever, st₁) :: tr₂).flatMap drained) st := by
  refine h.since (I := fun tr st => Reachable cfg st₀ ∧ Running cfg st ∧ Stage cfg st₀.adapter.lent
    (((st₀, .act .dataRetriever, st₁) :: tr).flatMap drained) st) rfl (fun h₀ hs => ?_)
    fun tr' l s m s' _ hmem hI hs => ?_
  · have hreach := reachable_of_trace h₀
    obtain ⟨hr, hst⟩ := stage_start hreach hk hcall hs
    exact ⟨hreach, hr, by simpa using hst⟩
  · obtain ⟨hreach, hr, hst⟩ := hI
    have hquiet : Quiet cfg s m := hq _ hmem
    have hnext := hst.moved (fun blk hmem => lent_aligned hreach hk hmem) hr hquiet hs
    refine ⟨hreach, hr.moved hquiet hs, ?_⟩
    rwa [← List.cons_append, List.flatMap_append, List.flatMap_singleton]

/-- **The drain flushes the client.** From the call of `probe_blocks` on, with no Acquire outstanding
    and a client that can no longer write what it is probed for: when `drive` is cleared, each block
    that the adapter had as TRUNK has been probed, once and in the order of the table, there is no
    such block any more, and the client can write no block. -/
theorem drain_flushes
    (h : (system cfg).Trace (tr₁ ++ (st₀, .act .dataRetriever, st₁) :: tr₂) st)
    (hcall : st₀.adapter.retrieve = true ∧ st₀.adapter.retriever = true)
    (hk : ∀ src, st₀.client.acquires src = none) (hq : Machine.Along (Quiet cfg) tr₂)
    (hd : st.adapter.drive = false) :
    st₀.adapter.lent.Nodup ∧
    ((st₀, .act .dataRetriever, st₁) :: tr₂).flatMap drained = st₀.adapter.lent ∧
    (∀ blk, st.adapter.perm blk = .tip) ∧ ∀ blk, st.client.held blk ≠ .T := by
  obtain ⟨hreach, hr, hst⟩ := stage_of_trace h hcall hk hq
  have hi := reachable_inv hr.reach
  have htable := (reachable_orderly hr.reach).table
  cases hst with
  | sent _ _ _ _ _ _ hon _ _ =>
      rw [hon] at hd
      cases hd
  | waits _ _ _ _ _ hon _ =>
      rw [hon] at hd
      cases hd
  | finished hlog _ _ htrunk =>
      refine ⟨(reachable_orderly hreach).table.nodup.filter _, hlog.symm, fun blk => ?_,
        fun blk hT => htrunk blk (hi.owned blk hT)⟩
      exact (htable.two blk).resolve_right (htrunk blk)

/-- **The drain is not lost.** As long as `drive` is set, the blocks that have been probed are the
    first ones of the table, and the client has a probe to answer, or one is on its way to it. -/
theorem drain_goes_on
    (h : (system cfg).Trace (tr₁ ++ (st₀, .act .dataRetriever, st₁) :: tr₂) st)
    (hcall : st₀.adapter.retrieve = true ∧ st₀.adapter.retriever = true)
    (hk : ∀ src, st₀.client.acquires src = none) (hq : Machine.Along (Quiet cfg) tr₂)
    (hd : st.adapter.drive = true) :
    ((st₀, .act .dataRetriever, st₁) :: tr₂).flatMap drained <+: st₀.adapter.lent ∧
    st.inFlight.length + st.client.answering.toList.length = 1 := by
  obtain ⟨_, hr, hst⟩ := stage_of_trace h hcall hk hq
  have hone := reachable_oneProbe hr.reach
  unfold OneProbe at hone
  cases hst with
  | sent cur rest hlog _ hp _ _ _ _ =>
      rw [hone, hp]
      exact ⟨⟨rest, hlog.symm⟩, rfl⟩
  | waits cur rest hlog _ hwait _ _ =>
      -- something waits, so a source is busy
      have hok := reachable_server hr.reach
      have hne : st.adapter.bSrcs.eventQueue ≠ [] := by
        intro he
        unfold Adapter.waiting at hwait
        rw [he] at hwait
        cases hwait
      obtain ⟨c, hc⟩ := Option.ne_none_iff_exists'.mp (pending_of_busy hok (hok.waits hne))
      rw [hone, hc]
      exact ⟨⟨cur :: rest, hlog.symm⟩, rfl⟩
  | finished _ _ hoff _ =>
      rw [hoff] at hd
      cases hd

/-- **What the client gives back stays.** A word that a beat on channel C brings is in the memory, in
    every state after it, until a step writes it again. -/
theorem returned_word {b : CBeat} (h : (system cfg).Trace (tr₁ ++ (st₀, .act (.c b), st₁) :: tr₂) st)
    (hb : Client.hasData b.opcode = true)
    (hnot : ∀ x ∈ tr₂, ∀ a, x.2.1 = .act a → x.1.adapter.written cfg a ≠
      some (cfg.addrAligned b.address + st₀.adapter.cOngoings.getD b.source 0 * cfg.datalen)) :
    st.adapter.memory.getD
      (cfg.addrAligned b.address + st₀.adapter.cOngoings.getD b.source 0 * cfg.datalen) 0 =
      b.data := by
  refine h.since (I := fun _ st => st.adapter.memory.getD (cfg.addrAligned b.address +
    st₀.adapter.cOngoings.getD b.source 0 * cfg.datalen) 0 = b.data) rfl (fun _ hs => ?_)
    fun tr' l s m s' _ hmem hI hs => ?_
  · have hm : Moved cfg st₀ (.act (.c b)) st₁ := hs
    cases hm with
    | act _ s' _ _ _ hact => exact Adapter.cOpcode_word hb (Adapter.cPortMonitor_ok hact)
  · cases hs with
    | dFire => exact hI
    | bFire => exact hI
    | act a s' _ _ _ hact =>
        by_cases ha : a = .dPop
        · subst ha
          have hkept : s'.memory = s.adapter.memory := (Adapter.dPop_tail (dPop_driven hact)).2.1
          show s'.memory.getD _ 0 = _
          rw [hkept]
          exact hI
        · exact ((Adapter.act_effect ha hact).memory _ (hnot _ hmem a rfl)).trans hI

end Runs

/-! ## 3. A drain of one block -/

namespace DrainDemo

open OwnershipDemo (config start beat msg)

/-- The turn of the adapter, with what the client sends. -/
def turn (st : System) (a : Action) : System :=
  st.turned config a (valueD (st.adapter.act config a) st.adapter)

theorem moved_turn (st : System) (a : Action) (hd : a.driven = true → st.adapter.drive = true)
    (hk : st.client.May config a) (hw : st.Ready a) (hs : (st.adapter.act config a).isOk = true) :
    Moved config st (.act a) (turn st a) :=
  .act st a _ hd hk hw (eq_ok_valueD _ hs)

/-- The client gets block 64, then the run is stopped. -/
def acquired : System := turn start (.a beat)

def driven : System := turn acquired .dPop

def granted : System := { driven with client := driven.client.receive msg, dWire := none }

def stopped : System := turn granted .stop

/-- The probe goes to the client. -/
def called : System := turn stopped .dataRetriever

def popped : System := turn called .bPop

def probe : BMessage :=
  { opcode := .probeBlock, param := toN, size := 6, source := 0, address := 64, mask := 255 }

def probed : System :=
  { popped with
    client := { popped.client with probes := popped.client.probes ++ [probe] }, bWire := none }

/-- The client gives the block up, with new data. -/
def answer : CBeat :=
  { opcode := .probeAckData, param := TtoN, size := 6, source := 0, address := 64, data := 7
    corrupt := 0 }

def flushed : System := turn probed (.c answer)

/-- The run to the call of `probe_blocks`. -/
def before : List (System × Move × System) :=
  [(start, .act (.a beat), acquired), (acquired, .act .dPop, driven), (driven, .dFire, granted),
    (granted, .act .stop, stopped)]

/-- The run from then on: the probe comes to the client, and it answers. -/
def asks : List (System × Move × System) :=
  [(called, .act .bPop, popped), (popped, .bFire, probed)]

def drain : List (System × Move × System) := asks ++ [(probed, .act (.c answer), flushed)]

theorem probed_trace :
    (system config).Trace (before ++ (stopped, .act .dataRetriever, called) :: asks) probed := by
  have hmay : start.client.MayAcquire config beat :=
    ⟨.inl rfl, rfl, rfl, fun _ _ ha => (by cases ha), fun _ _ hb => (by cases hb)⟩
  have h₁ : Moved config start (.act (.a beat)) acquired :=
    moved_turn start (.a beat) (fun _ => rfl) (fun _ => hmay) trivial (by decide +kernel)
  have h₂ : Moved config acquired (.act .dPop) driven :=
    moved_turn acquired .dPop (fun _ => by decide +kernel) trivial rfl (by decide +kernel)
  have h₃ : Moved config driven .dFire granted := .dFire driven msg (by decide +kernel)
  have h₄ : Moved config granted (.act .stop) stopped :=
    moved_turn granted .stop (fun h => by cases h) trivial trivial rfl
  have h₅ : Moved config stopped (.act .dataRetriever) called :=
    moved_turn stopped .dataRetriever (fun h => by cases h) trivial trivial (by decide +kernel)
  have h₆ : Moved config called (.act .bPop) popped :=
    moved_turn called .bPop (fun _ => by decide +kernel) trivial rfl rfl
  have h₇ : Moved config popped .bFire probed := .bFire popped probe (by decide +kernel)
  have hstart : (system config).Trace [] start := .start _ ⟨_, _, _, _, _, _, _, rfl⟩
  exact ((((((hstart.step _ _ h₁).step _ _ h₂).step _ _ h₃).step _ _ h₄).step _ _ h₅).step
    _ _ h₆).step _ _ h₇

theorem flushed_trace :
    (system config).Trace (before ++ (stopped, .act .dataRetriever, called) :: drain) flushed := by
  have hanswer : probed.client.MayRespond config answer :=
    ⟨⟨.N, by decide +kernel⟩, .inr ⟨.inr rfl, probe, by decide +kernel, by decide +kernel⟩⟩
  have hs : Moved config probed (.act (.c answer)) flushed :=
    moved_turn probed (.c answer) (fun _ => by decide +kernel) hanswer trivial (by decide +kernel)
  exact probed_trace.step _ _ hs

theorem stopped_acquires (src : Nat) : stopped.client.acquires src = none := by
  by_cases hsrc : src = 1
  · subst hsrc
    decide +kernel
  · exact (Function.update_of_ne hsrc _ _).trans (Function.update_of_ne hsrc _ _)

theorem stopped_calls : stopped.adapter.retrieve = true ∧ stopped.adapter.retriever = true :=
  ⟨by decide +kernel, by decide +kernel⟩

theorem asks_quiet : Machine.Along (Quiet config) asks := by
  intro x hx
  simp only [asks, List.mem_cons, List.not_mem_nil, or_false] at hx
  obtain rfl | rfl := hx
  · trivial
  · trivial

theorem drain_quiet : Machine.Along (Quiet config) drain := by
  refine Machine.along_append.mpr ⟨asks_quiet, fun x hx => ?_⟩
  rw [List.mem_singleton.mp hx]
  exact fun _ _ _ => .inr rfl

end DrainDemo

section Demo

open DrainDemo

theorem drain_flushes_one :
    stopped.adapter.lent = [64] ∧
    ((stopped, .act .dataRetriever, called) :: drain).flatMap drained = [64] ∧
    flushed.adapter.perm 64 = .tip ∧ flushed.client.held 64 ≠ .T := by
  have hlent : stopped.adapter.lent = [64] := by decide +kernel
  obtain ⟨_, hlog, hperm, hheld⟩ :=
    drain_flushes flushed_trace stopped_calls stopped_acquires drain_quiet (by decide +kernel)
  exact ⟨hlent, hlog.trans hlent, hperm 64, hheld 64⟩

theorem drain_goes_on_one :
    probed.inFlight.length + probed.client.answering.toList.length = 1 :=
  (drain_goes_on probed_trace stopped_calls stopped_acquires asks_quiet (by decide +kernel)).2

/-- The probe is with the client, and gone when it has been answered. -/
theorem probe_accounted_probed :
    (∃ p, probed.inFlight = [p] ∧ probed.client.answering = none) ∧
    flushed.inFlight = [] ∧ flushed.client.answering = none := by
  have hflight : probed.inFlight ≠ [] := by decide +kernel
  have hone := (probe_accounted (reachable_of_trace probed_trace)).2 (by decide +kernel)
  exact ⟨hone.resolve_right fun h => hflight h.1,
    (probe_accounted (reachable_of_trace flushed_trace)).1 (by decide +kernel)⟩

theorem returned_word_one : flushed.adapter.memory.getD 64 0 = 7 := by
  have hword := @returned_word OwnershipDemo.config
    (before ++ (stopped, .act .dataRetriever, called) :: asks) [] probed flushed flushed answer
    flushed_trace rfl fun _ hx => by cases hx
  have haddr : OwnershipDemo.config.addrAligned answer.address +
      probed.adapter.cOngoings.getD answer.source 0 * OwnershipDemo.config.datalen = 64 := by
    decide +kernel
  rw [haddr] at hword
  exact hword

end Demo

end Difuzz.TileLink
