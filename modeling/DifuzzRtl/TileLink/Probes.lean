/-
  File:      DifuzzRtl/TileLink/Probes.lean
  Subject:   The service of probe requests: `retrieveBlock`, the free list of sources, the table of
             callbacks, and the answer to a probe.

  A request takes a free source or waits; an answer runs the callback of its source, which may make
  further requests, and then frees the source, which lets the next request that waits have it.

  * `ServerOk` -- what relates the free list, the table and the waiting requests. It is kept while
    a callback runs, when one source is neither free nor in use (`hold`).
  * `Probing` -- sequences of requests and answers, with a log of both; `probes_served` -- what
    holds after each.
-/
import DifuzzRtl.TileLink.Grants

namespace Difuzz.TileLink

/-! ## 1. The state of the service -/

/-- The service of probes for the sources `ids`, while the callback of the source `hold` runs. -/
structure ServerOk (ids : List Nat) (s : Adapter) (hold : Option Nat) : Prop where
  initList : s.bSrcs.initList = ids
  srcs : s.bCallback.srcs = ids
  keys : s.bCallback.cMap.keys = ids
  nodup : s.bSrcs.freeList.Nodup
  free : ∀ src, src ∈ s.bSrcs.freeList ↔
    s.bCallback.cMap.get? src = some none ∧ hold ≠ some src
  waits : s.bSrcs.eventQueue ≠ [] → s.bSrcs.freeList = []

/-- The lists of sources are those of the start. -/
structure TablesOk (ids : List Nat) (s : Adapter) : Prop where
  initList : s.bSrcs.initList = ids
  srcs : s.bCallback.srcs = ids
  keys : s.bCallback.cMap.keys = ids

theorem ServerOk.tables {ids : List Nat} {s : Adapter} {hold : Option Nat}
    (h : ServerOk ids s hold) : TablesOk ids s := ⟨h.initList, h.srcs, h.keys⟩

theorem TablesOk.mem_ids {ids : List Nat} {s : Adapter} (h : TablesOk ids s) {src : Nat}
    {x : Option Callback} (hx : s.bCallback.cMap.get? src = some x) : src ∈ ids := by
  rw [← h.keys]
  exact Dict.get?_isSome_iff.mp ⟨x, hx⟩

/-- The probe of a request. -/
def Retrieve.message (r : Retrieve) (src : Nat) : BMessage :=
  { opcode := r.msg, param := r.param, size := r.size, source := src, address := r.addr
    mask := r.mask }

/-- The probe of the request `r` is sent, with a source that was free. -/
structure Sent (s s' : Adapter) (r : Retrieve) (src : Nat) : Prop where
  free : src ∈ s.bSrcs.freeList
  cMap : ∀ x, s'.bCallback.cMap.get? x =
    if x = src then some (some r.callback) else s.bCallback.cMap.get? x
  freeList : s'.bSrcs.freeList = s.bSrcs.freeList.erase src
  eventQueue : s'.bSrcs.eventQueue = s.bSrcs.eventQueue
  bQueue : s'.bQueue = s.bQueue ++ [r.message src]
  ongoingTlc : s'.ongoingTlc = s.ongoingTlc

namespace Adapter

variable {cfg : Config} {ids : List Nat} {s s' : Adapter} {hold : Option Nat}

/-- **A source that is free is taken**; no check fails. -/
theorem retrieveBlockCb_sent (h : TablesOk ids s) (hne : s.bSrcs.freeList ≠ [])
    (hfree : ∀ src ∈ s.bSrcs.freeList, s.bCallback.cMap.get? src = some none) (r : Retrieve) :
    ∃ s' src, s.retrieveBlockCb r = .ok s' ∧ Sent s s' r src ∧ TablesOk ids s' := by
  have hlt : s.random 0 % s.bSrcs.freeList.length < s.bSrcs.freeList.length :=
    Nat.mod_lt _ (List.length_pos_iff.mpr hne)
  have hget : s.bSrcs.get (s.random 0) = .ok (s.bSrcs.freeList[s.random 0 % _],
      { s.bSrcs with freeList := s.bSrcs.freeList.erase s.bSrcs.freeList[s.random 0 % _] }) := by
    unfold FreeList.get
    rw [List.getElem?_eq_getElem hlt]
  have hsrc : s.bSrcs.freeList[s.random 0 % s.bSrcs.freeList.length] ∈ s.bSrcs.freeList :=
    List.getElem_mem hlt
  generalize hgen : s.bSrcs.freeList[s.random 0 % s.bSrcs.freeList.length] = src at hget hsrc
  have hnone := hfree src hsrc
  have hids := h.mem_ids hnone
  have hset : s.bCallback.set src r.callback =
      .ok { s.bCallback with cMap := s.bCallback.cMap.set src (some r.callback) } := by
    have hsrcs : src ∈ s.bCallback.srcs := by
      rw [h.srcs]
      exact hids
    unfold SrcToCallback.set check
    rw [if_pos hsrcs, hnone]
    rfl
  refine ⟨{ s with
    random := fun i => s.random (i + 1)
    bSrcs := { s.bSrcs with freeList := s.bSrcs.freeList.erase src }
    bCallback := { s.bCallback with cMap := s.bCallback.cMap.set src (some r.callback) }
    bQueue := s.bQueue ++ [r.message src] }, src, ?_, ?_, h.initList, h.srcs, ?_⟩
  · unfold retrieveBlockCb choice
    rw [hget]
    show (do
      let bCallback ← s.bCallback.set src r.callback
      return _ : Except Error Adapter) = _
    rw [hset]
    rfl
  · exact ⟨hsrc, fun x => Dict.get?_set .., rfl, rfl, rfl, rfl⟩
  · show (s.bCallback.cMap.set src _).keys = ids
    rw [Dict.keys_set_of_mem, h.keys]
    rw [h.keys]
    exact hids

/-- The service after a probe has been sent: a source that was free is in use. -/
theorem serverOk_of_sent (h : ServerOk ids s hold) {r : Retrieve} {src : Nat} (hs : Sent s s' r src)
    (ht : TablesOk ids s') (he : s.bSrcs.eventQueue = []) : ServerOk ids s' hold := by
  refine ⟨ht.initList, ht.srcs, ht.keys, ?_, fun x => ?_, fun hne => ?_⟩
  · rw [hs.freeList]
    exact h.nodup.erase src
  · rw [hs.freeList, h.nodup.mem_erase_iff, h.free, hs.cMap]
    by_cases hx : x = src
    · simp [hx]
    · simp [hx]
  · rw [hs.eventQueue] at hne
    exact absurd he hne

end Adapter

/-- What a request does: its probe is sent, or it waits at the end of the queue. -/
inductive Requested (s s' : Adapter) (r : Retrieve) : Prop where
  | sent (src : Nat) (hs : Sent s s' r src) (he : s.bSrcs.eventQueue = [])
  | waits (hfree : s.bSrcs.freeList = []) (hs : s' = { s with bSrcs := s.bSrcs.reserve r })

namespace Adapter

variable {cfg : Config} {ids : List Nat} {s s' : Adapter} {hold : Option Nat}

/-- **A request is sent or waits**; no check fails. -/
theorem retrieveBlock_requested (h : ServerOk ids s hold) (c : Callback) (param size addr mask : Nat) :
    ∃ s', s.retrieveBlock c param size addr mask = .ok s' ∧
      Requested s s' ⟨.probeBlock, c, param, size, addr, mask⟩ ∧ ServerOk ids s' hold := by
  unfold retrieveBlock
  by_cases hfree : s.bSrcs.freeList = []
  · have hempty : s.bSrcs.empty = true := by
      unfold FreeList.empty
      rw [hfree]
      rfl
    refine ⟨_, if_pos hempty, .waits hfree rfl, h.initList, h.srcs, h.keys, h.nodup, h.free, ?_⟩
    exact fun _ => hfree
  · have hempty : ¬ s.bSrcs.empty = true := by
      unfold FreeList.empty
      rw [List.isEmpty_iff]
      exact hfree
    have he : s.bSrcs.eventQueue = [] := by
      by_contra hne
      exact hfree (h.waits hne)
    obtain ⟨s', src, hs', hsent, ht⟩ := retrieveBlockCb_sent h.tables hfree
      (fun src hsrc => ((h.free src).mp hsrc).1) ⟨.probeBlock, c, param, size, addr, mask⟩
    exact ⟨s', (if_neg hempty).trans hs', .sent src hsent he, serverOk_of_sent h hsent ht he⟩

/-! ## 2. The answer to a probe -/

/-- The state while the callback of a source runs. -/
def taken (s : Adapter) (src : Nat) : Adapter :=
  { s with bCallback := { s.bCallback with cMap := s.bCallback.cMap.set src none } }

@[simp] theorem get?_taken (src x : Nat) : (s.taken src).bCallback.cMap.get? x =
    if x = src then some none else s.bCallback.cMap.get? x := Dict.get?_set ..

/-- The callback of a source that is in use is taken out. -/
theorem serverOk_taken (h : ServerOk ids s none) {src : Nat} {c : Callback}
    (hc : s.bCallback.cMap.get? src = some (some c)) : ServerOk ids (s.taken src) (some src) := by
  refine ⟨h.initList, h.srcs, ?_, h.nodup, fun x => ?_, h.waits⟩
  · show (s.bCallback.cMap.set src none).keys = ids
    rw [Dict.keys_set_of_mem, h.keys]
    exact Dict.get?_isSome_iff.mp ⟨_, hc⟩
  · show x ∈ s.bSrcs.freeList ↔ _
    rw [h.free, get?_taken]
    by_cases hx : x = src
    · subst hx
      simp [hc]
    · have hx' : src ≠ x := fun e => hx e.symm
      simp [hx, hx']

end Adapter

/-- The requests that a callback makes. -/
def Callback.requests : Callback → List Callback
  | .probeBlocksRec (_ :: probeAddrs) => [.probeBlocksRec probeAddrs]
  | _ => []

/-- The address that a callback asks a probe for. -/
def Callback.nextAddr : Callback → Option Nat
  | .probeBlocksRec (addr :: _) => some addr
  | _ => none

/-- What a callback does to the service: nothing, or one request. -/
inductive Called (s s' : Adapter) (c : Callback) : Prop where
  | quiet (hc : c.requests = []) (hsrcs : s'.bSrcs = s.bSrcs) (hcall : s'.bCallback = s.bCallback)
      (hq : s'.bQueue = s.bQueue)
  | request (r : Retrieve) (hc : c.requests = [r.callback]) (ha : c.nextAddr = some r.addr)
      (hs : Requested s s' r)

namespace Adapter

variable {cfg : Config} {ids : List Nat} {s s' : Adapter} {hold : Option Nat}

theorem serverOk_congr (h : ServerOk ids s hold) (hsrcs : s'.bSrcs = s.bSrcs)
    (hcall : s'.bCallback = s.bCallback) : ServerOk ids s' hold := by
  obtain ⟨h₁, h₂, h₃, h₄, h₅, h₆⟩ := h
  refine ⟨?_, ?_, ?_, ?_, ?_, ?_⟩
  · rw [hsrcs]; exact h₁
  · rw [hcall]; exact h₂
  · rw [hcall]; exact h₃
  · rw [hsrcs]; exact h₄
  · rw [hsrcs, hcall]; exact h₅
  · rw [hsrcs]; exact h₆

/-- **A callback runs**: it makes its requests, and no check fails. -/
theorem call_called (h : ServerOk ids s hold) (c : Callback) :
    (∀ message, s.call cfg c ≠ .error (.assertion message)) ∧
    ∀ s', s.call cfg c = .ok s' → Called s s' c ∧ ServerOk ids s' hold := by
  -- a callback that leaves the service alone
  have hquiet : ∀ {s₁ : Adapter}, s.call cfg c = .ok s₁ → c.requests = [] → s₁.bSrcs = s.bSrcs →
      s₁.bCallback = s.bCallback → s₁.bQueue = s.bQueue →
      (∀ message, s.call cfg c ≠ .error (.assertion message)) ∧
      ∀ s', s.call cfg c = .ok s' → Called s s' c ∧ ServerOk ids s' hold := by
    intro s₁ hs₁ hc hsrcs hcall hq
    rw [hs₁]
    refine ⟨fun message he => (nomatch he), fun s' hs' => ?_⟩
    cases hs'
    exact ⟨.quiet hc hsrcs hcall hq, serverOk_congr h hsrcs hcall⟩
  have herr : ∀ {e : Error}, (∀ message, e ≠ .assertion message) → s.call cfg c = .error e →
      (∀ message, s.call cfg c ≠ .error (.assertion message)) ∧
      ∀ s', s.call cfg c = .ok s' → Called s s' c ∧ ServerOk ids s' hold := by
    intro e he hs
    rw [hs]
    refine ⟨fun message hm => ?_, fun s' hs' => (nomatch hs')⟩
    cases hm
    exact he message rfl
  cases c with
  | accessAck => exact hquiet rfl rfl rfl rfl rfl
  | accessAckData => exact hquiet rfl rfl rfl rfl rfl
  | arithmeticAck _ _ addrAligned | logicalAck _ _ addrAligned =>
      by_cases hm : s.memory.contains addrAligned = true
      · exact herr (fun _ => Error.noConfusion) (if_pos hm)
      · exact herr (fun _ => Error.noConfusion) (if_neg hm)
  | grant => exact herr (fun _ => Error.noConfusion) rfl
  | grantData => exact hquiet rfl rfl rfl rfl rfl
  | enableProbe => exact hquiet rfl rfl rfl rfl rfl
  | probeBlocksRec addrs =>
      cases addrs with
      | nil => exact hquiet rfl rfl rfl rfl rfl
      | cons addr addrs =>
          obtain ⟨s₁, hs₁, hreq, hok⟩ := retrieveBlock_requested h (.probeBlocksRec addrs) toN
            cfg.lgBlockSize addr (2 ^ cfg.bDatalen - 1)
          have hcall : s.call cfg (.probeBlocksRec (addr :: addrs)) = .ok s₁ := hs₁
          rw [hcall]
          refine ⟨fun message he => (nomatch he), fun s' hs' => ?_⟩
          cases hs'
          exact ⟨.request _ rfl rfl hreq, hok⟩

end Adapter

/-- What the release of a source does: it is free, or the next request has it. -/
inductive Released (s s' : Adapter) (src : Nat) : Prop where
  | idle (he : s.bSrcs.eventQueue = [])
      (hs : s' = { s with bSrcs := { s.bSrcs with freeList := s.bSrcs.freeList ++ [src] } })
  | next (r : Retrieve) (rest : List Retrieve) (he : s.bSrcs.eventQueue = r :: rest)
      (hs : Sent { s with bSrcs := { s.bSrcs with freeList := [src], eventQueue := rest } } s' r src)

namespace Adapter

variable {cfg : Config} {ids : List Nat} {s s' : Adapter} {hold : Option Nat}

/-- **A source is released**; no check fails. -/
theorem bSrcsRelease_released {src : Nat} (h : ServerOk ids s (some src))
    (hnone : s.bCallback.cMap.get? src = some none) :
    ∃ s', s.bSrcsRelease src = .ok s' ∧ Released s s' src ∧ ServerOk ids s' none := by
  have hids := h.tables.mem_ids hnone
  have hused : src ∉ s.bSrcs.freeList := fun hm => ((h.free src).mp hm).2 rfl
  have hrel : s.bSrcs.release src =
      .ok ({ s.bSrcs with
        freeList := s.bSrcs.freeList ++ [src], eventQueue := s.bSrcs.eventQueue.tail },
        s.bSrcs.eventQueue.head?) := by
    have hinit : src ∈ s.bSrcs.initList := by
      rw [h.initList]
      exact hids
    unfold FreeList.release check
    rw [if_pos hinit, if_pos hused]
    rfl
  -- with the source free, whatever waits
  have hfree : ∀ x, x ∈ s.bSrcs.freeList ++ [src] ↔
      s.bCallback.cMap.get? x = some none ∧ (none : Option Nat) ≠ some x := by
    intro x
    rw [List.mem_append, List.mem_singleton, h.free]
    by_cases hx : x = src
    · simp [hx, hnone]
    · have hx' : src ≠ x := fun e => hx e.symm
      simp [hx, hx']
  have hnodup : (s.bSrcs.freeList ++ [src]).Nodup := by
    refine List.nodup_append.mpr ⟨h.nodup, List.nodup_singleton src, fun a ha b hb e => ?_⟩
    rw [List.mem_singleton.mp hb] at e
    exact hused (e ▸ ha)
  cases he : s.bSrcs.eventQueue with
  | nil =>
      refine ⟨{ s with bSrcs := { s.bSrcs with freeList := s.bSrcs.freeList ++ [src] } }, ?_,
        .idle he rfl, h.initList, h.srcs, h.keys, hnodup, hfree, fun hne => absurd he hne⟩
      unfold bSrcsRelease
      rw [hrel, he]
      simp only [List.head?_nil, List.tail_nil]
      rw [← he]
  | cons r rest =>
      have hempty : s.bSrcs.freeList = [] := h.waits (by rw [he]; exact List.cons_ne_nil _ _)
      rw [hempty, List.nil_append] at hfree hnodup
      let s₁ : Adapter := { s with bSrcs := { s.bSrcs with freeList := [src], eventQueue := rest } }
      have ht₁ : TablesOk ids s₁ := ⟨h.initList, h.srcs, h.keys⟩
      obtain ⟨s', src', hs', hsent, ht⟩ := retrieveBlockCb_sent ht₁ (List.cons_ne_nil _ _)
        (fun x hx => ((hfree x).mp hx).1) r
      have hsrc : src' = src := List.mem_singleton.mp hsent.free
      subst hsrc
      refine ⟨s', ?_, .next r rest he hsent, ht.initList, ht.srcs, ht.keys, ?_, fun x => ?_, fun _ => ?_⟩
      · unfold bSrcsRelease
        rw [hrel, he, hempty]
        exact hs'
      · rw [hsent.freeList]
        exact hnodup.erase _
      · rw [hsent.freeList, hsent.cMap, hnodup.mem_erase_iff, hfree]
        by_cases hx : x = src'
        · simp [hx]
        · simp [hx, s₁]
      · rw [hsent.freeList]
        exact List.erase_cons_head ..

end Adapter

/-- What the answer to a probe does: the callback of its source is taken out and runs, and the source
    is released. -/
structure AnsweredBy (ids : List Nat) (s s' : Adapter) (src : Nat) (c : Callback) : Prop where
  steps : ∃ s₁, Called (s.taken src) s₁ c ∧ ServerOk ids s₁ (some src) ∧
    s₁.bCallback.cMap.get? src = some none ∧ Released s₁ s' src
  server : ServerOk ids s' none

namespace Adapter

variable {cfg : Config} {ids : List Nat} {s s' : Adapter}

/-- A callback leaves the entry of the source that is held alone. -/
theorem called_hold {src : Nat} {c : Callback} (h : ServerOk ids s (some src))
    (hnone : s.bCallback.cMap.get? src = some none) (hs : Called s s' c) :
    s'.bCallback.cMap.get? src = some none := by
  cases hs with
  | quiet _ _ hcall _ =>
      rw [hcall]
      exact hnone
  | request r _ _ hs =>
      cases hs with
      | sent src' hs _ =>
          have hne : src ≠ src' := by
            intro e
            subst e
            exact ((h.free src).mp hs.free).2 rfl
          rw [hs.cMap, if_neg hne]
          exact hnone
      | waits _ hs =>
          subst hs
          exact hnone

theorem bCallbackCall_eq {src : Nat} {c : Callback}
    (hc : s.bCallback.cMap.get? src = some (some c)) :
    s.bCallbackCall cfg src = (s.taken src).call cfg c := by
  unfold bCallbackCall SrcToCallback.call
  rw [hc]
  rfl

/-- **The answer to a probe**; no check fails. -/
theorem answerProbe_answered (h : ServerOk ids s none) {b : CBeat} {c : Callback}
    (hc : s.bCallback.cMap.get? b.source = some (some c)) :
    (∀ message, s.answerProbe cfg b ≠ .error (.assertion message)) ∧
    ∀ s', s.answerProbe cfg b = .ok s' → AnsweredBy ids s s' b.source c := by
  have hhold := serverOk_taken h hc
  obtain ⟨hno, hok⟩ := @call_called cfg _ _ _ hhold c
  have hnone : (s.taken b.source).bCallback.cMap.get? b.source = some none := by
    rw [get?_taken, if_pos rfl]
  unfold answerProbe
  rw [bCallbackCall_eq hc]
  cases hs₁ : (s.taken b.source).call cfg c with
  | error e =>
      refine ⟨fun message he => ?_, fun s' hs' => (nomatch hs')⟩
      cases he
      exact hno message hs₁
  | ok s₁ =>
      obtain ⟨hcalled, hok₁⟩ := hok s₁ hs₁
      have hnone₁ := called_hold hhold hnone hcalled
      obtain ⟨s₂, hs₂, hrel, hok₂⟩ := bSrcsRelease_released hok₁ hnone₁
      have hres : (do
          let s ← Except.ok s₁
          s.bSrcsRelease b.source : Except Error Adapter) = .ok s₂ := hs₂
      rw [hres]
      refine ⟨fun message he => (nomatch he), fun s' hs' => ?_⟩
      cases hs'
      exact ⟨⟨s₁, hcalled, hok₁, hnone₁, hrel⟩, hok₂⟩

end Adapter

/-! ## 3. Requests and answers in any order -/

/-- What has happened: the requests in order, the callbacks that ran in order, and the sources of the
    probes that are pushed and not answered. -/
structure ProbeLog where
  calls : List Callback
  ran : List Callback
  issued : List Nat
  deriving DecidableEq

/-- The sources of the probes that are pushed on the B queue between two states. -/
def issuedBy (s s' : Adapter) : List Nat := (s'.bQueue.drop s.bQueue.length).map (·.source)

/-- The callback of a source. -/
def Adapter.pending (s : Adapter) (src : Nat) : Option Callback := s.bCallback.cMap.getD src none

/-- **Requests, and one answer to each probe**, in any order, from any state with all sources free;
    in between anything else may happen. -/
inductive Probing (cfg : Config) (ids : List Nat) : Adapter → ProbeLog → Prop where
  | start (s : Adapter) (hsrcs : s.bSrcs = .new "b_srcs" ids)
      (hcall : s.bCallback = .new "b_callback" ids) : Probing cfg ids s ⟨[], [], []⟩
  | request (s s' : Adapter) (log : ProbeLog) (c : Callback) (param size addr mask : Nat)
      (h : Probing cfg ids s log) (hs : s.retrieveBlock c param size addr mask = .ok s') :
      Probing cfg ids s' { log with
        calls := log.calls ++ [c]
        issued := log.issued ++ issuedBy s s' }
  | probeAck (s s' : Adapter) (log : ProbeLog) (b : CBeat) (h : Probing cfg ids s log)
      (hb : b.source ∈ log.issued) (hs : s.answerProbe cfg b = .ok s') :
      Probing cfg ids s'
        ⟨log.calls ++ (s.pending b.source).toList.flatMap Callback.requests,
         log.ran ++ (s.pending b.source).toList, log.issued.erase b.source ++ issuedBy s s'⟩
  | other (s s' : Adapter) (log : ProbeLog) (h : Probing cfg ids s log)
      (hsrcs : s'.bSrcs = s.bSrcs) (hcall : s'.bCallback = s.bCallback) : Probing cfg ids s' log

/-- The sources with a callback are those of the list. -/
structure IssuedOk (issued : List Nat) (s : Adapter) : Prop where
  nodup : issued.Nodup
  mem : ∀ src, src ∈ issued ↔ ∃ c, s.bCallback.cMap.get? src = some (some c)

/-- **What holds between the steps.** -/
structure LogOk (ids : List Nat) (s : Adapter) (log : ProbeLog) : Prop where
  server : ServerOk ids s none
  issued : IssuedOk log.issued s
  order : ids.length = 1 → log.calls = log.ran ++ s.deferred

theorem issuedBy_of_append {s s' : Adapter} {new : List BMessage} (h : s'.bQueue = s.bQueue ++ new) :
    issuedBy s s' = new.map (·.source) := by
  unfold issuedBy
  rw [h, List.drop_left]

section Log

variable {ids : List Nat} {s s' : Adapter} {hold : Option Nat} {issued : List Nat}

/-- A probe is sent. -/
theorem IssuedOk.sent (h : IssuedOk issued s) {r : Retrieve} {src : Nat} (hs : Sent s s' r src)
    (hnone : s.bCallback.cMap.get? src = some none) : IssuedOk (issued ++ [src]) s' := by
  have hnot : src ∉ issued := by
    intro hm
    obtain ⟨c, hc⟩ := (h.mem src).mp hm
    rw [hnone] at hc
    cases hc
  refine ⟨List.nodup_append.mpr ⟨h.nodup, List.nodup_singleton src, fun a ha b hb e => ?_⟩,
    fun x => ?_⟩
  · rw [List.mem_singleton.mp hb] at e
    exact hnot (e ▸ ha)
  · rw [List.mem_append, List.mem_singleton, h.mem, hs.cMap]
    by_cases hx : x = src
    · simp [hx]
    · simp [hx]

/-- What is pushed by a request. -/
theorem IssuedOk.requested (h : IssuedOk issued s) (hok : ServerOk ids s hold) {r : Retrieve}
    (hs : Requested s s' r) : ∃ new, s'.bQueue = s.bQueue ++ new ∧
      IssuedOk (issued ++ new.map (·.source)) s' := by
  cases hs with
  | sent src hs _ =>
      exact ⟨[r.message src], hs.bQueue, h.sent hs ((hok.free src).mp hs.free).1⟩
  | waits _ hs =>
      subst hs
      refine ⟨[], (List.append_nil _).symm, ?_⟩
      rw [List.map_nil, List.append_nil]
      exact ⟨h.nodup, h.mem⟩

/-- What is pushed while a callback runs. -/
theorem IssuedOk.called (h : IssuedOk issued s) (hok : ServerOk ids s hold) {c : Callback}
    (hs : Called s s' c) : ∃ new, s'.bQueue = s.bQueue ++ new ∧
      IssuedOk (issued ++ new.map (·.source)) s' := by
  cases hs with
  | quiet _ _ hcall hq =>
      refine ⟨[], by rw [hq, List.append_nil], ?_⟩
      rw [List.map_nil, List.append_nil]
      refine ⟨h.nodup, ?_⟩
      rw [hcall]
      exact h.mem
  | request r _ _ hs => exact h.requested hok hs

/-- What is pushed when a source is released. -/
theorem IssuedOk.released (h : IssuedOk issued s) {src : Nat}
    (hnone : s.bCallback.cMap.get? src = some none) (hs : Released s s' src) :
    ∃ new, s'.bQueue = s.bQueue ++ new ∧ IssuedOk (issued ++ new.map (·.source)) s' := by
  cases hs with
  | idle _ hs =>
      subst hs
      refine ⟨[], (List.append_nil _).symm, ?_⟩
      rw [List.map_nil, List.append_nil]
      exact ⟨h.nodup, h.mem⟩
  | next r rest _ hs =>
      have h₀ : IssuedOk issued { s with
        bSrcs := { s.bSrcs with freeList := [src], eventQueue := rest } } := ⟨h.nodup, h.mem⟩
      exact ⟨[r.message src], hs.bQueue, h₀.sent hs hnone⟩

/-- With one source, what is deferred is the callback in the table and then the queue. -/
theorem deferred_single {i : Nat} (h : TablesOk [i] s) :
    s.deferred = (s.pending i).toList ++ s.bSrcs.eventQueue.map (·.callback) := by
  have hkeys := h.keys
  unfold Adapter.deferred Adapter.pending Dict.values Dict.getD Dict.get?
  unfold Dict.keys at hkeys
  match hes : s.bCallback.cMap.entries, hkeys with
  | [(k, x)], hkeys =>
      have hk : k = i := by simpa using hkeys
      subst hk
      cases x <;> simp

theorem ServerOk.pending_free {i : Nat} (h : ServerOk ids s hold) (hi : i ∈ s.bSrcs.freeList) :
    s.pending i = none := by
  unfold Adapter.pending Dict.getD
  rw [((h.free i).mp hi).1]
  rfl

theorem requested_deferred {i : Nat} (h : ServerOk [i] s hold) (h' : ServerOk [i] s' hold)
    {r : Retrieve} (hs : Requested s s' r) : s'.deferred = s.deferred ++ [r.callback] := by
  rw [deferred_single h.tables, deferred_single h'.tables]
  cases hs with
  | sent src hs he =>
      have hsrc : src = i :=
        List.mem_singleton.mp (h.tables.mem_ids ((h.free src).mp hs.free).1)
      subst hsrc
      have hp : s'.pending src = some r.callback := by
        unfold Adapter.pending Dict.getD
        rw [hs.cMap, if_pos rfl]
        rfl
      rw [hp, hs.eventQueue, he, h.pending_free hs.free]
      rfl
  | waits _ hs =>
      subst hs
      show _ = (s.pending i).toList ++ _ ++ _
      rw [List.append_assoc]
      congr 1
      exact List.map_append

theorem called_deferred {i : Nat} {c : Callback} (h : ServerOk [i] s hold)
    (h' : ServerOk [i] s' hold) (hs : Called s s' c) : s'.deferred = s.deferred ++ c.requests := by
  cases hs with
  | quiet hc hsrcs hcall _ =>
      unfold Adapter.deferred
      rw [hc, hsrcs, hcall, List.append_nil]
  | request r hc _ hs =>
      rw [hc]
      exact requested_deferred h h' hs

theorem released_deferred {i src : Nat} (h : ServerOk [i] s (some src)) (h' : ServerOk [i] s' none)
    (hnone : s.bCallback.cMap.get? src = some none) (hs : Released s s' src) :
    s'.deferred = s.deferred := by
  have hsrc : src = i := List.mem_singleton.mp (h.tables.mem_ids hnone)
  subst hsrc
  rw [deferred_single h.tables, deferred_single h'.tables]
  have hp : s.pending src = none := by
    unfold Adapter.pending Dict.getD
    rw [hnone]
    rfl
  cases hs with
  | idle _ hs =>
      subst hs
      rfl
  | next r rest he hs =>
      have hp' : s'.pending src = some r.callback := by
        unfold Adapter.pending Dict.getD
        rw [hs.cMap, if_pos rfl]
        rfl
      rw [hp, hp', he, hs.eventQueue]
      rfl

/-- **With one source, an answer runs the callback that was deferred first**; its own requests come
    last. -/
theorem answered_deferred {cfg : Config} {i : Nat} {b : CBeat} {c : Callback}
    (h : ServerOk [i] s none) (hc : s.bCallback.cMap.get? b.source = some (some c))
    (hs : s.answerProbe cfg b = .ok s') :
    s.deferred = c :: (s.taken b.source).deferred ∧
    s'.deferred = (s.taken b.source).deferred ++ c.requests := by
  obtain ⟨⟨s₁, hcalled, hok₁, hnone₁, hrel⟩, hok⟩ := (Adapter.answerProbe_answered h hc).2 s' hs
  have hhold := Adapter.serverOk_taken h hc
  have hi : b.source = i := List.mem_singleton.mp (h.tables.mem_ids hc)
  have hp : s.pending i = some c := by
    unfold Adapter.pending Dict.getD
    rw [← hi, hc]
    rfl
  have hp' : (s.taken b.source).pending i = none := by
    unfold Adapter.pending Dict.getD
    rw [Adapter.get?_taken, if_pos hi.symm]
    rfl
  constructor
  · rw [deferred_single h.tables, deferred_single hhold.tables, hp, hp']
    rfl
  · rw [released_deferred hok₁ hok hnone₁ hrel, called_deferred hhold hok₁ hcalled]

end Log

/-! ## 4. What holds after every step -/

section Steps

variable {cfg : Config} {ids : List Nat} {s s' : Adapter} {log : ProbeLog}

/-- At the start every source is free. -/
theorem logOk_start (hids : ids.Nodup) (hsrcs : s.bSrcs = .new "b_srcs" ids)
    (hcall : s.bCallback = .new "b_callback" ids) : LogOk ids s ⟨[], [], []⟩ := by
  have hmap : (ids.map fun src => (src, (none : Option Callback))).map (·.1) = ids := by
    rw [List.map_map]
    exact List.map_id ids
  have hentries : s.bCallback.cMap.entries = ids.map fun src => (src, none) := by
    rw [hcall]
    exact Dict.ofList_entries (by rw [hmap]; exact hids)
  have hget : ∀ src x, s.bCallback.cMap.get? src = some x → src ∈ ids ∧ x = none := by
    intro src x hx
    have hm := Dict.mem_of_lookup hx
    rw [hentries] at hm
    obtain ⟨src', hm', he⟩ := List.mem_map.mp hm
    cases he
    exact ⟨hm', rfl⟩
  have hkeys : s.bCallback.cMap.keys = ids := by
    unfold Dict.keys
    rw [hentries]
    exact hmap
  refine ⟨⟨?_, ?_, hkeys, ?_, fun src => ?_, fun hne => ?_⟩, ⟨List.nodup_nil, fun src => ?_⟩,
    fun _ => ?_⟩
  · rw [hsrcs]
    rfl
  · rw [hcall]
    rfl
  · rw [hsrcs]
    exact hids
  · rw [hsrcs]
    show src ∈ ids ↔ _
    rw [← hkeys, ← Dict.get?_isSome_iff]
    constructor
    · intro h
      obtain ⟨x, hx⟩ := h
      rw [hx, (hget src x hx).2]
      exact ⟨rfl, fun e => (nomatch e)⟩
    · intro h
      exact ⟨none, h.1⟩
  · rw [hsrcs] at hne
    exact absurd rfl hne
  · refine ⟨fun hm => (nomatch hm), fun hm => ?_⟩
    obtain ⟨c, hc⟩ := hm
    cases (hget src _ hc).2
  · unfold Adapter.deferred Dict.values
    rw [hentries, hsrcs, List.map_map]
    have hnone : (List.map ((fun e => e.2) ∘ fun src => (src, (none : Option Callback))) ids).filterMap
        id = [] := by
      rw [List.filterMap_map]
      exact List.filterMap_eq_nil_iff.mpr fun _ _ => rfl
    rw [hnone]
    rfl

theorem LogOk.request (h : LogOk ids s log) {c : Callback} {param size addr mask : Nat}
    (hs : s.retrieveBlock c param size addr mask = .ok s') :
    LogOk ids s' { log with
      calls := log.calls ++ [c]
      issued := log.issued ++ issuedBy s s' } := by
  obtain ⟨s₁, hs₁, hreq, hok⟩ := Adapter.retrieveBlock_requested h.server c param size addr mask
  rw [hs] at hs₁
  cases hs₁
  obtain ⟨new, hq, hissued⟩ := h.issued.requested h.server hreq
  rw [issuedBy_of_append hq]
  refine ⟨hok, hissued, fun hlen => ?_⟩
  obtain ⟨i, rfl⟩ := List.length_eq_one_iff.mp hlen
  show log.calls ++ [c] = log.ran ++ s'.deferred
  rw [requested_deferred h.server hok hreq, h.order hlen, List.append_assoc]

theorem LogOk.probeAck (h : LogOk ids s log) {b : CBeat} {c : Callback}
    (hc : s.bCallback.cMap.get? b.source = some (some c)) (hs : s.answerProbe cfg b = .ok s') :
    LogOk ids s' ⟨log.calls ++ c.requests, log.ran ++ [c],
      log.issued.erase b.source ++ issuedBy s s'⟩ := by
  obtain ⟨⟨s₁, hcalled, hok₁, hnone₁, hrel⟩, hok⟩ :=
    (Adapter.answerProbe_answered h.server hc).2 s' hs
  have hhold := Adapter.serverOk_taken h.server hc
  -- the source is no longer in use, then perhaps another one is, and perhaps this one again
  have hissued : IssuedOk (log.issued.erase b.source) (s.taken b.source) := by
    refine ⟨h.issued.nodup.erase _, fun x => ?_⟩
    rw [h.issued.nodup.mem_erase_iff, h.issued.mem, Adapter.get?_taken]
    by_cases hx : x = b.source
    · simp [hx]
    · simp [hx]
  obtain ⟨new₁, hq₁, hissued₁⟩ := hissued.called hhold hcalled
  obtain ⟨new₂, hq₂, hissued₂⟩ := hissued₁.released hnone₁ hrel
  have hby : issuedBy s s' = new₁.map (·.source) ++ new₂.map (·.source) := by
    rw [← List.map_append]
    refine issuedBy_of_append ?_
    rw [hq₂, hq₁, List.append_assoc]
    rfl
  refine ⟨hok, ?_, fun hlen => ?_⟩
  · show IssuedOk (log.issued.erase b.source ++ issuedBy s s') s'
    rw [hby, ← List.append_assoc]
    exact hissued₂
  · obtain ⟨i, rfl⟩ := List.length_eq_one_iff.mp hlen
    obtain ⟨hbefore, hafter⟩ := answered_deferred h.server hc hs
    show log.calls ++ c.requests = log.ran ++ [c] ++ s'.deferred
    rw [hafter, h.order hlen, hbefore]
    simp only [List.append_assoc, List.cons_append, List.nil_append]

/-- What relates the free list, the table, the queue and the log, after every step. -/
theorem Probing.logOk (hids : ids.Nodup) (h : Probing cfg ids s log) : LogOk ids s log := by
  induction h with
  | start s hsrcs hcall => exact logOk_start hids hsrcs hcall
  | request s s' log c param size addr mask _ hs ih => exact ih.request hs
  | probeAck s s' log b _ hb hs ih =>
      obtain ⟨c, hc⟩ := (ih.issued.mem b.source).mp hb
      have hp : s.pending b.source = some c := by
        unfold Adapter.pending Dict.getD
        rw [hc]
        rfl
      have h' := ih.probeAck hc hs
      rw [hp]
      simpa using h'
  | other s s' log _ hsrcs hcall ih =>
      refine ⟨Adapter.serverOk_congr ih.server hsrcs hcall, ⟨ih.issued.nodup, ?_⟩, fun hlen => ?_⟩
      · rw [hcall]
        exact ih.issued.mem
      · rw [ih.order hlen]
        unfold Adapter.deferred
        rw [hsrcs, hcall]

/-- **Probe requests are served**, for any list of distinct sources: a source is free or has a
    callback, requests wait only when no source is free, no check of a request or an answer fails,
    and with one source the callbacks run in the order of the requests, each once: those that ran
    are followed by those that are still deferred. -/
theorem probes_served (hids : ids.Nodup) (h : Probing cfg ids s log) :
    (∀ src ∈ ids, Xor (src ∈ s.bSrcs.freeList)
      (∃ c, s.bCallback.cMap.get? src = some (some c))) ∧
    (s.bSrcs.eventQueue ≠ [] → s.bSrcs.freeList = []) ∧
    (∀ c param size addr mask, ∃ s', s.retrieveBlock c param size addr mask = .ok s') ∧
    (∀ (b : CBeat) (message : String), b.source ∈ log.issued →
      s.answerProbe cfg b ≠ .error (.assertion message)) ∧
    (ids.length = 1 → log.calls = log.ran ++ s.deferred) := by
  have hlog := h.logOk hids
  refine ⟨fun src hsrc => ?_, hlog.server.waits, fun c param size addr mask => ?_,
    fun b message hb => ?_, hlog.order⟩
  · rw [← hlog.server.keys, ← Dict.get?_isSome_iff] at hsrc
    obtain ⟨x, hx⟩ := hsrc
    rw [hlog.server.free, hx]
    cases x with
    | none => exact .inl ⟨⟨rfl, fun e => (nomatch e)⟩, fun hc => by obtain ⟨c, hc⟩ := hc; cases hc⟩
    | some c => exact .inr ⟨⟨c, rfl⟩, fun hn => by cases hn.1⟩
  · obtain ⟨s', hs', _⟩ := Adapter.retrieveBlock_requested hlog.server c param size addr mask
    exact ⟨s', hs'⟩
  · obtain ⟨c, hc⟩ := (hlog.issued.mem b.source).mp hb
    exact (Adapter.answerProbe_answered hlog.server hc).1 message

end Steps

/-! ### Runs -/

namespace ProbesDemo

def config : Config := { protocol := .tlC, lgDatalen := 3, bDatalen := 8 }

/-- The adapter with a list of sources. -/
def start (ids : List Nat) : Adapter :=
  { Adapter.start config .empty .empty false true 0 .insertion fun _ => 0 with
    bSrcs := .new "b_srcs" ids, bCallback := .new "b_callback" ids }

/-- The host asks for block 64. -/
def first (ids : List Nat) : Adapter :=
  valueD ((start ids).retrieveBlock .enableProbe toN 6 64 255) (start ids)

/-- The drain asks for block 128; block 192 is to follow. -/
def second : Adapter :=
  valueD ((first [0]).retrieveBlock (.probeBlocksRec [192]) toN 6 128 255) (first [0])

def ack : CBeat :=
  { opcode := .probeAck, param := NtoN, size := 6, source := 0, address := 64, data := 0
    corrupt := 0 }

def answered : Adapter := valueD (second.answerProbe config ack) second

theorem first_probing (ids : List Nat)
    (h : ((start ids).retrieveBlock .enableProbe toN 6 64 255).isOk = true) :
    Probing config ids (first ids) ⟨[.enableProbe], [], issuedBy (start ids) (first ids)⟩ :=
  .request _ _ _ _ _ _ _ _ (.start _ rfl rfl) (eq_ok_valueD _ h)

theorem answered_probing : Probing config [0] answered
    ⟨[.enableProbe, .probeBlocksRec [192]], [.enableProbe], [0]⟩ := by
  have h₁ := first_probing [0] (by decide +kernel)
  have h₂ := Probing.request _ second _ _ _ _ _ _ h₁ (eq_ok_valueD _ (by decide +kernel))
  have h₃ := Probing.probeAck _ answered _ ack h₂ (by decide +kernel)
    (eq_ok_valueD _ (by decide +kernel))
  refine cast (congrArg (Probing config [0] answered) ?_) h₃
  decide +kernel

end ProbesDemo

theorem probes_served_answered : ([0] : List Nat).Nodup ∧
    [Callback.enableProbe, .probeBlocksRec [192]] = [.enableProbe] ++ ProbesDemo.answered.deferred := by
  have hids : ([0] : List Nat).Nodup := List.nodup_singleton 0
  exact ⟨hids, (probes_served hids ProbesDemo.answered_probing).2.2.2.2 rfl⟩

/-- A source that is listed twice is handed out twice: the second request trips a check. -/
theorem not_probes_served_twice : ∃ s log, Probing ProbesDemo.config [0, 0] s log ∧
    s.retrieveBlock .enableProbe toN 6 64 255 =
      .error (.assertion "b_callback duplicate callback setup") := by
  refine ⟨_, _, ProbesDemo.first_probing [0, 0] (by decide +kernel), ?_⟩
  rfl

end Difuzz.TileLink
