/-
  File:      DifuzzRtl/TileLink/Grants.lean
  Subject:   The grants that are under way in the adapter.

  A grant lives in two places: in the D queue, as its beats, the first of which carries the change
  of the permission; and before that, when the block has to be retrieved first, in the callback of
  a probe that is sent or waits.

  * `Adapter.grantBeats` -- how many beats of grants the adapter still has to drive for a source.
  * `GrantsOk` -- the grants agree with the outstanding Acquires, and the permission changes before
    the last beat of a grant can have been driven.
  * `Shuffles` -- what all but a few operations do to grants: they move them at most.
    `answerProbe_shuffles`, `aOpcode_shuffles` and the others say so of each operation.
  * `Grants` -- an Acquire, which adds one; `returnBlock_ok`, `dPop_ok` -- the two operations that
    change permissions.
-/
import Mathlib.Algebra.BigOperators.Group.List.Basic
import DifuzzRtl.TileLink.System

namespace Difuzz.TileLink

/-! ## 1. Grants under way -/

/-- The beats of a grant to the source that a callback will push. -/
def Callback.grantBeats (src : Nat) : Callback → Nat
  | .grantData n _ _ _ _ source _ => if source = src then n else 0
  | _ => 0

/-- The callback will push a grant. -/
def Callback.isGrant : Callback → Bool
  | .grantData .. => true
  | _ => false

/-- 1 for a beat of a grant to the source. -/
def DEntry.grantBeats (src : Nat) (e : DEntry) : Nat :=
  match e.1 with
  | some msg => if msg.isGrant ∧ msg.source = src then 1 else 0
  | none => 0

namespace Adapter

/-- The callbacks of the probes that are not answered: those sent, and those that wait. -/
def deferred (s : Adapter) : List Callback :=
  s.bCallback.cMap.values.filterMap id ++ s.bSrcs.eventQueue.map (·.callback)

/-- The beats of grants that are still to be driven for a source. -/
def grantBeats (s : Adapter) (src : Nat) : Nat :=
  (s.dQueue.map (DEntry.grantBeats src)).sum + (s.deferred.map (Callback.grantBeats src)).sum

end Adapter

section Ok

variable (R : Nat → Nat → Nat → Prop)

/-- A deferred grant is what its source has acquired (`R`). -/
def CallbackOk : Callback → Prop
  | .grantData n _ param _ _ source blockAddr =>
      1 ≤ n ∧ ∀ blk cap, R source blk cap → blk = blockAddr ∧ cap = param
  | _ => True

/-- The blocks that are owned by the client when the entry has been popped. -/
def owned (P : Nat → Prop) (e : DEntry) : Nat → Prop := fun a =>
  P a ∨ (e.1.isSome ∧ e.2 = some (.updatePerm a toT))

/-- A beat grants what its source has acquired, and a change of a permission comes with a beat of
    the grant of that block. -/
structure EntryOk (e : DEntry) : Prop where
  param : ∀ msg, e.1 = some msg → msg.isGrant → ∀ blk cap, R msg.source blk cap → msg.param = cap
  update : ∀ a p, e.2 = some (.updatePerm a p) → ∃ msg, e.1 = some msg ∧ msg.isGrant = true ∧
    ∀ blk cap, R msg.source blk cap → blk = a ∧ cap = p

/-- Popping the entries in order, a beat that grants to write finds its block owned by the client:
    it is before (`P`), or an entry up to this one makes it so. -/
def QueueOk : (Nat → Prop) → List DEntry → Prop
  | _, [] => True
  | P, e :: q =>
      EntryOk R e ∧
      (∀ msg, e.1 = some msg → msg.isGrant → msg.param = toT → ∀ blk cap, R msg.source blk cap →
        owned P e blk) ∧ QueueOk (owned P e) q

end Ok

/-- The entry has nothing to do with a grant. -/
def Plain (e : DEntry) : Prop :=
  (∀ msg, e.1 = some msg → msg.isGrant = false) ∧ ∀ a p, e.2 ≠ some (.updatePerm a p)

theorem plain_of_msg {msg : DMessage} (h : msg.isGrant = false) : Plain (some msg, none) := by
  refine ⟨fun msg' hm => ?_, fun a p => (nomatch ·)⟩
  cases hm
  exact h

/-- **The grants under way agree with the Acquires `R`** (source, block, permission asked for). -/
structure GrantsOk (R : Nat → Nat → Nat → Prop) (s : Adapter) : Prop where
  queue : QueueOk R (fun a => s.perm a = .trunk) s.dQueue
  deferred : ∀ c ∈ s.deferred, CallbackOk R c

section Queue

variable {R : Nat → Nat → Nat → Prop}

/-- Owning more does no harm; only blocks of Acquires matter. -/
theorem QueueOk.mono {P P' : Nat → Prop} {q : List DEntry}
    (hP : ∀ src blk cap, R src blk cap → P blk → P' blk) (h : QueueOk R P q) : QueueOk R P' q := by
  induction q generalizing P P' with
  | nil => trivial
  | cons e q ih =>
      have hown : ∀ src blk cap, R src blk cap → owned P e blk → owned P' e blk := by
        intro src blk cap hR ho
        rcases ho with ho | ho
        · exact .inl (hP src blk cap hR ho)
        · exact .inr ho
      exact ⟨h.1, fun msg hm hg hT blk cap hR => hown _ _ _ hR (h.2.1 msg hm hg hT blk cap hR),
        ih hown h.2.2⟩

/-- Entries that stand on their own may follow. -/
theorem QueueOk.append {P : Nat → Prop} {q q' : List DEntry} (h : QueueOk R P q)
    (h' : QueueOk R (fun _ => False) q') : QueueOk R P (q ++ q') := by
  induction q generalizing P with
  | nil => exact h'.mono fun _ _ _ _ hf => hf.elim
  | cons e q ih => exact ⟨h.1, h.2.1, ih h.2.2⟩

/-- Entries without a grant. -/
theorem QueueOk.of_plain {P : Nat → Prop} {q : List DEntry} (h : ∀ e ∈ q, Plain e) :
    QueueOk R P q := by
  induction q generalizing P with
  | nil => trivial
  | cons e q ih =>
      obtain ⟨hmsg, hcb⟩ := h e List.mem_cons_self
      have hno : ∀ msg, e.1 = some msg → ¬ msg.isGrant = true := by
        intro msg hm hg
        rw [hmsg msg hm] at hg
        cases hg
      exact ⟨⟨fun msg hm hg => absurd hg (hno msg hm), fun a p hp => absurd hp (hcb a p)⟩,
        fun msg hm hg => absurd hg (hno msg hm), ih fun e' he' => h e' (List.mem_cons_of_mem _ he')⟩

/-- Beats of owned blocks. -/
theorem QueueOk.of_owned {P : Nat → Prop} {q : List DEntry} (hcb : ∀ e ∈ q, e.2 = none)
    (h : ∀ e ∈ q, ∀ msg, e.1 = some msg → msg.isGrant → ∀ blk cap, R msg.source blk cap →
      msg.param = cap ∧ (msg.param = toT → P blk)) : QueueOk R P q := by
  induction q generalizing P with
  | nil => trivial
  | cons e q ih =>
      refine ⟨⟨fun msg hm hg blk cap hR => (h e List.mem_cons_self msg hm hg blk cap hR).1,
          fun a p hp => ?_⟩,
        fun msg hm hg hT blk cap hR => .inl ((h e List.mem_cons_self msg hm hg blk cap hR).2 hT),
        ih (fun e' he' => hcb e' (List.mem_cons_of_mem _ he')) fun e' he' msg hm hg blk cap hR => ?_⟩
      · rw [hcb e List.mem_cons_self] at hp
        cases hp
      · obtain ⟨hp, hT⟩ := h e' (List.mem_cons_of_mem _ he') msg hm hg blk cap hR
        exact ⟨hp, fun ht => .inl (hT ht)⟩

end Queue

/-! ## 2. Operations that move grants -/

/-- The operation leaves permissions, the D queue and the bursts of channel C alone. -/
structure Keeps (s s' : Adapter) : Prop where
  blockPerm : s'.blockPerm = s.blockPerm
  dQueue : s'.dQueue = s.dQueue
  cOngoings : s'.cOngoings = s.cOngoings

/-- **The operation moves grants at most**: permissions stay, the beats still to be driven stay,
    and grants that agreed with the Acquires do. -/
structure Shuffles (s s' : Adapter) : Prop where
  perm : ∀ a, s'.perm a = s.perm a
  cOngoings : s'.cOngoings = s.cOngoings
  beats : ∀ src, s'.grantBeats src = s.grantBeats src
  ok : ∀ R, GrantsOk R s → GrantsOk R s'

/-- A step that may count beats of channel C. -/
structure Carries (s s' : Adapter) : Prop where
  perm : ∀ a, s'.perm a = s.perm a
  beats : ∀ src, s'.grantBeats src = s.grantBeats src
  ok : ∀ R, GrantsOk R s → GrantsOk R s'

theorem Shuffles.carries {s s' : Adapter} (h : Shuffles s s') : Carries s s' :=
  ⟨h.perm, h.beats, h.ok⟩

theorem Carries.trans {s s' s'' : Adapter} (h : Carries s s') (h' : Carries s' s'') :
    Carries s s'' :=
  ⟨fun a => (h'.perm a).trans (h.perm a), fun src => (h'.beats src).trans (h.beats src),
   fun R hR => h'.ok R (h.ok R hR)⟩

theorem Shuffles.trans {s s' s'' : Adapter} (h : Shuffles s s') (h' : Shuffles s' s'') :
    Shuffles s s'' :=
  ⟨fun a => (h'.perm a).trans (h.perm a), h'.cOngoings.trans h.cOngoings,
   fun src => (h'.beats src).trans (h.beats src), fun R hR => h'.ok R (h.ok R hR)⟩

/-- What an operation does to grants: the entries `new` are pushed, the callbacks `gone` are no
    longer deferred, the callbacks `added` are. -/
structure Moves (s s' : Adapter) (new : List DEntry) (gone added : List Callback) : Prop where
  perm : ∀ a, s'.perm a = s.perm a
  cOngoings : s'.cOngoings = s.cOngoings
  dQueue : s'.dQueue = s.dQueue ++ new
  deferred : (gone ++ s'.deferred).Perm (added ++ s.deferred)

theorem Moves.beats {s s' : Adapter} {new : List DEntry} {gone added : List Callback}
    (h : Moves s s' new gone added) (src : Nat) :
    (gone.map (Callback.grantBeats src)).sum + s'.grantBeats src =
      (new.map (DEntry.grantBeats src)).sum + (added.map (Callback.grantBeats src)).sum +
        s.grantBeats src := by
  have hd := (h.deferred.map (Callback.grantBeats src)).sum_eq
  unfold Adapter.grantBeats
  rw [h.dQueue, List.map_append, List.sum_append]
  rw [List.map_append, List.map_append, List.sum_append, List.sum_append] at hd
  omega

theorem Moves.ok {s s' : Adapter} {new : List DEntry} {gone added : List Callback}
    (h : Moves s s' new gone added) {R : Nat → Nat → Nat → Prop} (hR : GrantsOk R s)
    (hnew : QueueOk R (fun _ => False) new) (hadd : ∀ c ∈ added, CallbackOk R c) : GrantsOk R s' := by
  refine ⟨?_, fun c hc => ?_⟩
  · rw [h.dQueue]
    refine (QueueOk.mono (fun _ blk _ _ hb => ?_) hR.queue).append hnew
    rw [h.perm]
    exact hb
  · have hmem := h.deferred.subset (List.mem_append_right _ hc)
    rcases List.mem_append.mp hmem with hc | hc
    · exact hadd c hc
    · exact hR.deferred c hc

/-- A move that neither makes nor takes a grant. -/
theorem Moves.shuffles {s s' : Adapter} {new : List DEntry} {gone added : List Callback}
    (h : Moves s s' new gone added)
    (hnew : ∀ e ∈ new, Plain e) (hgone : ∀ c ∈ gone, c.isGrant = false) (hadd : ∀ c ∈ added, c.isGrant = false) :
    Shuffles s s' := by
  have hzero : ∀ src, (new.map (DEntry.grantBeats src)).sum = 0 := by
    intro src
    refine List.sum_eq_zero fun x hx => ?_
    obtain ⟨e, he, rfl⟩ := List.mem_map.mp hx
    unfold DEntry.grantBeats
    split
    · rename_i msg hm
      rw [(hnew e he).1 msg hm]
      rfl
    · rfl
  have hcalls : ∀ (cs : List Callback) (src : Nat), (∀ c ∈ cs, c.isGrant = false) →
      (cs.map (Callback.grantBeats src)).sum = 0 := by
    intro cs src hcs
    refine List.sum_eq_zero fun x hx => ?_
    obtain ⟨c, hc, rfl⟩ := List.mem_map.mp hx
    cases c with
    | grantData => cases hcs _ hc
    | _ => rfl
  refine ⟨h.perm, h.cOngoings, fun src => ?_, fun R hR => h.ok hR (.of_plain hnew) fun c hc => ?_⟩
  · have hb := h.beats src
    rw [hzero, hcalls gone src hgone, hcalls added src hadd] at hb
    simpa using hb
  · cases c with
    | grantData => cases hadd _ hc
    | _ => trivial

/-- What keeps the tables and the callbacks moves nothing. -/
theorem Keeps.moves {s s' : Adapter} (h : Keeps s s') {gone added : List Callback}
    (hd : (gone ++ s'.deferred).Perm (added ++ s.deferred)) : Moves s s' [] gone added := by
  refine ⟨fun a => ?_, h.cOngoings, ?_, hd⟩
  · unfold Adapter.perm
    rw [h.blockPerm]
  · rw [h.dQueue, List.append_nil]

namespace Adapter

variable {cfg : Config} {s s' : Adapter}

/-- **A probe is sent**: its callback is deferred. -/
theorem retrieveBlockCb_spec {r : Retrieve} (h : s.retrieveBlockCb r = .ok s') :
    Keeps s s' ∧ s'.deferred.Perm (r.callback :: s.deferred) := by
  unfold retrieveBlockCb choice at h
  simp only [bind_ok] at h
  obtain ⟨⟨bSrc, bSrcs, s₁⟩, ⟨⟨ret, f⟩, hget, h₁⟩, bCallback, hset, h⟩ := h
  cases h₁
  cases h
  -- taking a source leaves the waiting requests
  have hevent : f.eventQueue = s.bSrcs.eventQueue := by
    unfold FreeList.get at hget
    split at hget
    · cases hget
      rfl
    · cases hget
  refine ⟨⟨rfl, rfl, rfl⟩, ?_⟩
  unfold SrcToCallback.set at hset
  simp only [bind_ok] at hset
  obtain ⟨_, _, hset⟩ := hset
  split at hset
  · cases hset
  · rename_i hnone
    cases hset
    obtain ⟨l, r', he, hs⟩ := Dict.set_split hnone
    unfold deferred Dict.values
    simp only [hs, he, hevent, List.map_append, List.map_cons, List.filterMap_append,
      List.append_assoc]
    exact List.perm_middle
  · cases hset

theorem retrieveBlock_spec {c : Callback} {param size addr mask : Nat}
    (h : s.retrieveBlock c param size addr mask = .ok s') :
    Keeps s s' ∧ s'.deferred.Perm (c :: s.deferred) := by
  unfold retrieveBlock at h
  simp only at h
  split at h
  · cases h
    refine ⟨⟨rfl, rfl, rfl⟩, ?_⟩
    unfold deferred FreeList.reserve
    rw [List.map_append, ← List.append_assoc]
    exact List.perm_append_comm
  · exact retrieveBlockCb_spec h

/-- A probe whose callback is no grant. -/
theorem retrieveBlock_shuffles {c : Callback} {param size addr mask : Nat}
    (h : s.retrieveBlock c param size addr mask = .ok s')
    (hc : c.isGrant = false) : Shuffles s s' := by
  obtain ⟨hk, hd⟩ := retrieveBlock_spec h
  have hm : Moves s s' [] [] [c] := hk.moves hd
  refine hm.shuffles (fun e he => ?_) (fun c' hc' => ?_) fun c' hc' => ?_
  · cases he
  · cases hc'
  · rw [List.mem_singleton.mp hc']
    exact hc

/-- Nothing happens to grants. -/
theorem shuffles_of_keeps (h : Keeps s s') (hd : s'.deferred.Perm s.deferred) : Shuffles s s' := by
  have hm : Moves s s' [] [] [] := h.moves hd
  refine hm.shuffles (fun e he => ?_) (fun c hc => ?_) fun c hc => ?_
  · cases he
  · cases hc
  · cases hc

/-- A message that is no grant is pushed. -/
theorem shuffles_of_push {new : List DEntry} (hp : s'.blockPerm = s.blockPerm)
    (ho : s'.cOngoings = s.cOngoings) (hq : s'.dQueue = s.dQueue ++ new)
    (hd : s'.deferred = s.deferred) (hnew : ∀ e ∈ new, Plain e) : Shuffles s s' := by
  have hm : Moves s s' new [] [] := ⟨fun a => by unfold perm; rw [hp], ho, hq, by rw [hd]⟩
  refine hm.shuffles hnew (fun c hc => ?_) fun c hc => ?_
  · cases hc
  · cases hc

theorem probeBlocksRec_shuffles {addrs : List Nat} (h : s.probeBlocksRec cfg addrs = .ok s') :
    Shuffles s s' := by
  cases addrs with
  | nil =>
      cases h
      exact shuffles_of_keeps ⟨rfl, rfl, rfl⟩ (.refl _)
  | cons addr addrs => exact retrieveBlock_shuffles h rfl

theorem accessAckCb_shuffles (burstLen burst size source : Nat) :
    Shuffles s (s.accessAckCb burstLen burst size source) := by
  refine shuffles_of_push rfl rfl (List.append_assoc ..) rfl fun e he => ?_
  rcases List.mem_append.mp he with he | he
  · rw [List.eq_of_mem_replicate he]
    exact ⟨fun msg hm => (nomatch hm), fun a p => (nomatch ·)⟩
  · rw [List.mem_singleton.mp he]
    refine ⟨fun msg hm => ?_, fun a p => (nomatch ·)⟩
    cases hm
    rfl

theorem accessAckDataCb_shuffles (burstLen addrAligned size source : Nat) :
    Shuffles s (s.accessAckDataCb cfg burstLen addrAligned size source) := by
  refine shuffles_of_push rfl rfl (s.accessAckDataCb_spec cfg burstLen addrAligned size source).1 rfl
    fun e he => ?_
  obtain ⟨msg, hmsg, rfl⟩ := List.mem_map.mp he
  obtain ⟨i, _, rfl⟩ := List.mem_map.mp hmsg
  exact plain_of_msg rfl

theorem pushD_shuffles {msg : DMessage} (hm : msg.isGrant = false) : Shuffles s (s.pushD msg) := by
  refine shuffles_of_push rfl rfl rfl rfl fun e he => ?_
  rw [List.mem_singleton.mp he]
  exact plain_of_msg hm

/-! ## 3. Grants pushed -/

/-- The beats of a grant, with their callbacks. -/
def grantEntries (msgs : List DMessage) (param blockAddr : Nat) : List DEntry :=
  (msgs.map some).zip (some (.updatePerm blockAddr param) :: List.replicate (msgs.length - 1) none)

theorem grantEntries_cons (msg : DMessage) (msgs : List DMessage) (param blockAddr : Nat) :
    grantEntries (msg :: msgs) param blockAddr =
      (some msg, some (.updatePerm blockAddr param)) :: msgs.map fun m => (some m, none) := by
  unfold grantEntries
  rw [List.map_cons, List.zip_cons_cons, List.length_cons, Nat.add_sub_cancel]
  congr 1
  induction msgs with
  | nil => rfl
  | cons m msgs ih =>
      rw [List.length_cons, List.replicate_succ, List.map_cons, List.zip_cons_cons, ih]
      rfl

/-- Entries that are the beats of one grant: `n` of them for the source, and they stand on their own
    when the source acquired the block so. -/
structure IsGrant (new : List DEntry) (n source param blockAddr : Nat) : Prop where
  beats : ∀ src, (new.map (DEntry.grantBeats src)).sum = if source = src then n else 0
  ok : ∀ R, (∀ blk cap, R source blk cap → blk = blockAddr ∧ cap = param) →
    QueueOk R (fun _ => False) new

theorem grantEntries_isGrant {msgs : List DMessage} {param source blockAddr : Nat}
    (h : ∀ msg ∈ msgs, msg.isGrant = true ∧ msg.source = source ∧ msg.param = param) :
    IsGrant (grantEntries msgs param blockAddr) msgs.length source param blockAddr := by
  cases msgs with
  | nil => exact ⟨fun src => (ite_self 0).symm, fun R _ => trivial⟩
  | cons msg msgs =>
      rw [grantEntries_cons]
      have hsame : ∀ (R : Nat → Nat → Nat → Prop),
          (∀ blk cap, R source blk cap → blk = blockAddr ∧ cap = param) → ∀ m ∈ msg :: msgs,
          ∀ blk cap, R m.source blk cap → blk = blockAddr ∧ cap = param ∧ m.param = cap := by
        intro R hR m hm blk cap hb
        obtain ⟨_, hs, hp⟩ := h m hm
        rw [hs] at hb
        obtain ⟨hblk, hcap⟩ := hR blk cap hb
        exact ⟨hblk, hcap, hp.trans hcap.symm⟩
      refine ⟨fun src => ?_, fun R hR => ⟨⟨fun m hm _ blk cap hb => ?_, fun a p hp => ?_⟩,
        fun m hm hg hT blk cap hb => ?_, QueueOk.of_owned (fun e he => ?_) ?_⟩⟩
      · have hone : ∀ m ∈ msg :: msgs, ∀ cb, DEntry.grantBeats src (some m, cb) =
            if source = src then 1 else 0 := by
          intro m hm cb
          obtain ⟨hg, hs, _⟩ := h m hm
          simp only [DEntry.grantBeats, hg, hs, true_and]
        have hrest : ((msgs.map fun m => ((some m, none) : DEntry)).map
            (DEntry.grantBeats src)).sum = if source = src then msgs.length else 0 := by
          rw [List.map_map]
          refine (congrArg List.sum (List.map_congr_left fun m hm =>
            hone m (List.mem_cons_of_mem _ hm) none)).trans ?_
          rw [List.map_const', List.sum_replicate]
          split <;> simp
        rw [List.map_cons, List.sum_cons, hrest, hone msg List.mem_cons_self, List.length_cons]
        split <;> omega
      · cases hm
        exact (hsame R hR msg List.mem_cons_self blk cap hb).2.2
      · obtain ⟨hg, _⟩ := h msg List.mem_cons_self
        cases hp
        refine ⟨msg, rfl, hg, fun blk cap hb => ?_⟩
        obtain ⟨hblk, hcap, _⟩ := hsame R hR msg List.mem_cons_self blk cap hb
        exact ⟨hblk, hcap⟩
      · -- the first beat changes the permission itself
        cases hm
        obtain ⟨hblk, hcap, hp⟩ := hsame R hR msg List.mem_cons_self blk cap hb
        rw [hblk, ← hcap, ← hp, hT]
        exact .inr ⟨rfl, rfl⟩
      · obtain ⟨m, _, rfl⟩ := List.mem_map.mp he
        rfl
      · intro e he m hm hg blk cap hb
        obtain ⟨m', hm', rfl⟩ := List.mem_map.mp he
        cases hm
        obtain ⟨hblk, hcap, hp⟩ := hsame R hR m (List.mem_cons_of_mem _ hm') blk cap hb
        refine ⟨hp, fun hT => ?_⟩
        rw [hblk, ← hcap, ← hp, hT]
        exact .inr ⟨rfl, rfl⟩

/-- **GrantData pushes the beats of one grant.** -/
theorem grantDataCb_spec (burstLen addrAligned param sink size source blockAddr : Nat) :
    ∃ new, Moves s (s.grantDataCb cfg burstLen addrAligned param sink size source blockAddr) new [] [] ∧
      IsGrant new burstLen source param blockAddr := by
  obtain ⟨hmsgs, _⟩ := getDMessages_spec cfg .grantData s.memory addrAligned param size source sink
    burstLen
  refine ⟨_, ⟨fun _ => rfl, rfl, rfl, .refl _⟩, ?_⟩
  have hlen : (getDMessages cfg .grantData s.memory addrAligned param size source sink
      burstLen).1.length = burstLen := by
    rw [hmsgs, List.length_map, List.length_range]
  have hall : ∀ msg ∈ (getDMessages cfg .grantData s.memory addrAligned param size source sink
      burstLen).1, msg.isGrant = true ∧ msg.source = source ∧ msg.param = param := by
    intro msg hmsg
    rw [hmsgs] at hmsg
    obtain ⟨i, _, rfl⟩ := List.mem_map.mp hmsg
    exact ⟨rfl, rfl, rfl⟩
  have h : IsGrant _ _ source param blockAddr := grantEntries_isGrant hall
  rw [hlen] at h
  exact h

/-! ## 4. Each operation -/

theorem touch_shuffles (addr : Nat) : Shuffles s (s.touch addr) := by
  have hm : Moves s (s.touch addr) [] [] [] :=
    ⟨s.perm_touch addr, rfl, (List.append_nil _).symm, .refl _⟩
  refine hm.shuffles (fun e he => ?_) (fun c hc => ?_) fun c hc => ?_
  · cases he
  · cases hc
  · cases hc

/-- A callback that is no grant. -/
theorem call_shuffles {c : Callback} (hc : c.isGrant = false) (h : s.call cfg c = .ok s') :
    Shuffles s s' := by
  cases c with
  | accessAck =>
      cases h
      exact accessAckCb_shuffles ..
  | accessAckData =>
      cases h
      exact accessAckDataCb_shuffles ..
  | arithmeticAck | logicalAck =>
      simp only [call, atomicAckCb] at h
      split at h <;> cases h
  | grant => cases h
  | grantData => cases hc
  | probeBlocksRec addrs => exact probeBlocksRec_shuffles h
  | enableProbe =>
      cases h
      exact shuffles_of_keeps ⟨rfl, rfl, rfl⟩ (.refl _)

/-- The callback of a source is taken out. -/
theorem bCallback_call_moves {src : Nat} {c : Option Callback} {bCallback : SrcToCallback Callback}
    (h : s.bCallback.call src = .ok (c, bCallback)) :
    Moves s { s with bCallback } [] c.toList [] := by
  refine ⟨fun _ => rfl, rfl, (List.append_nil _).symm, ?_⟩
  unfold SrcToCallback.call at h
  split at h
  · rename_i callback hsome
    cases h
    obtain ⟨l, r, he, hs⟩ := Dict.set_split hsome
    unfold deferred Dict.values
    simp only [hs, he, List.map_append, List.map_cons, List.filterMap_append, List.filterMap_cons,
      id_eq, List.append_assoc, Option.toList_some, List.nil_append, List.cons_append]
    exact List.perm_middle.symm
  · cases h
    exact .refl _
  · cases h

/-- A deferred grant is pushed. -/
theorem call_grant_shuffles {s₁ : Adapter} {c : Callback} (hg : c.isGrant = true)
    (h₁ : Moves s s₁ [] [c] []) (h : s₁.call cfg c = .ok s') : Shuffles s s' := by
  cases c with
  | grantData n a p k sz source blk =>
      cases h
      have hmem : Callback.grantData n a p k sz source blk ∈ s.deferred :=
        h₁.deferred.subset List.mem_cons_self
      obtain ⟨new, h₂, hnew⟩ := @grantDataCb_spec cfg s₁ n a p k sz source blk
      refine ⟨fun x => (h₂.perm x).trans (h₁.perm x), h₂.cOngoings.trans h₁.cOngoings, fun src => ?_,
        fun R hR => ?_⟩
      · have hb₁ := h₁.beats src
        have hb₂ := h₂.beats src
        rw [hnew.beats] at hb₂
        simp only [List.map_cons, List.map_nil, List.sum_cons, List.sum_nil, Callback.grantBeats]
          at hb₁ hb₂
        omega
      · have hc := hR.deferred _ hmem
        exact h₂.ok (h₁.ok hR trivial fun c hc => (nomatch hc)) (hnew.ok R hc.2) fun c hc =>
          (nomatch hc)
  | _ => cases hg

theorem bCallbackCall_shuffles {src : Nat} (h : s.bCallbackCall cfg src = .ok s') :
    Shuffles s s' := by
  unfold bCallbackCall at h
  split at h
  · rename_i c bCallback hcall
    have hm := bCallback_call_moves hcall
    cases hg : c.isGrant with
    | true => exact call_grant_shuffles hg hm h
    | false =>
        have h₁ : Shuffles s { s with bCallback } := by
          refine hm.shuffles (fun e he => (nomatch he)) (fun c' hc' => ?_) fun c hc => (nomatch hc)
          rw [List.mem_singleton.mp hc']
          exact hg
        exact h₁.trans (call_shuffles hg h)
  · rename_i bCallback hcall
    cases h
    exact (bCallback_call_moves hcall).shuffles (fun e he => (nomatch he)) (fun c hc => (nomatch hc))
      fun c hc => (nomatch hc)
  · cases h

theorem bSrcsRelease_shuffles {src : Nat} (h : s.bSrcsRelease src = .ok s') : Shuffles s s' := by
  have hevent : ∀ {bSrcs event}, s.bSrcs.release src = .ok (bSrcs, event) →
      s.bSrcs.eventQueue = event.toList ++ bSrcs.eventQueue := by
    intro bSrcs event hrel
    unfold FreeList.release at hrel
    simp only [bind_ok] at hrel
    obtain ⟨_, _, _, _, hrel⟩ := hrel
    cases hrel
    cases s.bSrcs.eventQueue <;> rfl
  unfold bSrcsRelease at h
  split at h
  · -- the callback of the waiting probe is now one of a probe that is sent
    rename_i bSrcs r hrel
    obtain ⟨hk, hd⟩ := retrieveBlockCb_spec h
    refine shuffles_of_keeps ⟨hk.blockPerm, hk.dQueue, hk.cOngoings⟩ (hd.trans ?_)
    unfold deferred
    rw [hevent hrel]
    exact List.perm_middle.symm
  · rename_i bSrcs hrel
    cases h
    refine shuffles_of_keeps ⟨rfl, rfl, rfl⟩ (.of_eq ?_)
    unfold deferred
    rw [hevent hrel]
    rfl
  · cases h

/-- **The answer to a probe**: its callback runs, and a waiting probe may be sent. -/
theorem answerProbe_shuffles {b : CBeat} (h : s.answerProbe cfg b = .ok s') : Shuffles s s' := by
  unfold answerProbe at h
  rw [bind_ok] at h
  obtain ⟨s₁, h₁, h⟩ := h
  exact (bCallbackCall_shuffles h₁).trans (bSrcsRelease_shuffles h)

theorem putData_shuffles {b : ABeat} (h : s.putData cfg b = .ok s') : Shuffles s s' := by
  unfold putData at h
  simp only at h
  split at h
  · rw [bind_ok] at h
    obtain ⟨s₁, h₁, h⟩ := h
    have hnew : Shuffles s s₁ := by
      unfold newBurst at h₁
      split at h₁
      · have hk := retrieveBlock_shuffles h₁ rfl
        exact ⟨hk.perm, hk.cOngoings, hk.beats, fun R hR => hk.ok R ⟨hR.queue, hR.deferred⟩⟩
      · cases h₁
        exact shuffles_of_keeps ⟨rfl, rfl, rfl⟩ (.refl _)
    refine hnew.trans ?_
    unfold collect at h
    split at h
    · cases h
      exact shuffles_of_keeps ⟨rfl, rfl, rfl⟩ (.refl _)
    · cases h
  · split at h
    · cases h
      refine shuffles_of_push rfl rfl rfl rfl fun e he => ?_
      rw [List.mem_singleton.mp he]
      exact plain_of_msg rfl
    · cases h
      exact shuffles_of_keeps ⟨rfl, rfl, rfl⟩ (.refl _)

theorem atomicData_shuffles {b : ABeat} {title : String} {op : Nat → Nat → Option Int}
    {callback : Nat → Nat → Nat → Nat → Nat → Nat → Nat → Callback}
    (hc : ∀ x y z u v w t, (callback x y z u v w t).isGrant = false)
    (h : s.atomicData cfg b title op callback = .ok s') : Shuffles s s' := by
  unfold atomicData at h
  simp only [bind_ok] at h
  obtain ⟨_, _, offset, _, h⟩ := h
  split at h
  · exact retrieveBlock_shuffles h (hc ..)
  · unfold atomicOp at h
    simp only at h
    split at h
    · cases h
    · cases h
      refine shuffles_of_push rfl rfl rfl rfl fun e he => ?_
      rw [List.mem_singleton.mp he]
      exact plain_of_msg rfl

/-- **A beat of channel A that is no Acquire.** -/
theorem aOpcode_shuffles {b : ABeat} (hb : b.opcode ≠ .acquireBlock ∧ b.opcode ≠ .acquirePerm)
    (h : s.aOpcode cfg b = .ok s') : Shuffles s s' := by
  have hsame : ∀ {x : Adapter}, Except.ok s = (Except.ok x : Except Error Adapter) → Shuffles s x := by
    intro x hx
    cases hx
    exact shuffles_of_keeps ⟨rfl, rfl, rfl⟩ (.refl _)
  unfold aOpcode at h
  split at h
  · unfold getData at h
    simp only at h
    split at h
    · exact retrieveBlock_shuffles h rfl
    · cases h
      exact accessAckDataCb_shuffles ..
  · exact putData_shuffles h
  · exact putData_shuffles h
  · split at h
    · exact atomicData_shuffles (fun _ _ _ _ _ _ _ => rfl) h
    · exact hsame h
  · split at h
    · exact atomicData_shuffles (fun _ _ _ _ _ _ _ => rfl) h
    · exact hsame h
  · split at h
    · cases h
      exact pushD_shuffles rfl
    · exact hsame h
  · rename_i hop
    exact absurd hop hb.1
  · rename_i hop
    exact absurd hop hb.2

/-- A beat of channel A passes its checks and takes the branch of its opcode. -/
theorem aPortMonitor_ok {b : ABeat} (h : s.aPortMonitor cfg b = .ok s') :
    (s.touch (cfg.blockAddr b.address)).aOpcode cfg b = .ok s' := by
  unfold aPortMonitor at h
  simp only [bind_ok] at h
  obtain ⟨_, _, _, _, h⟩ := h
  exact h

end Adapter

/-! ## 5. Acquires -/

/-- **The operation adds a grant** of at most `n` beats to the source, for the block. -/
structure Grants (s s' : Adapter) (n source param blockAddr : Nat) : Prop where
  perm : ∀ a, s'.perm a = s.perm a
  cOngoings : s'.cOngoings = s.cOngoings
  beats : ∀ src, s'.grantBeats src ≤ s.grantBeats src + if source = src then n else 0
  ok : ∀ R, GrantsOk R s → (∀ blk cap, R source blk cap → blk = blockAddr ∧ cap = param) →
    GrantsOk R s'

/-- Nothing is granted. -/
theorem Shuffles.grants {s s' : Adapter} (h : Shuffles s s') (n source param blockAddr : Nat) :
    Grants s s' n source param blockAddr :=
  ⟨h.perm, h.cOngoings, fun src => by rw [h.beats]; omega, fun R hR _ => h.ok R hR⟩

theorem Shuffles.trans_grants {s s₁ s' : Adapter} {n source param blockAddr : Nat}
    (h : Shuffles s s₁) (h' : Grants s₁ s' n source param blockAddr) :
    Grants s s' n source param blockAddr :=
  ⟨fun a => (h'.perm a).trans (h.perm a), h'.cOngoings.trans h.cOngoings,
   fun src => by rw [← h.beats]; exact h'.beats src, fun R hR => h'.ok R (h.ok R hR)⟩

/-- The beats of a grant are pushed. -/
theorem Moves.grants_of_push {s s' : Adapter} {new : List DEntry} {n source param blockAddr : Nat}
    (h : Moves s s' new [] []) (hnew : Adapter.IsGrant new n source param blockAddr) :
    Grants s s' n source param blockAddr := by
  refine ⟨h.perm, h.cOngoings, fun src => ?_, fun R hR hblk =>
    h.ok hR (hnew.ok R hblk) fun c hc => (nomatch hc)⟩
  have hb := h.beats src
  rw [hnew.beats] at hb
  simp only [List.map_nil, List.sum_nil] at hb
  omega

/-- A grant is deferred. -/
theorem Moves.grants_of_defer {s s' : Adapter} {n a p k sz source blockAddr : Nat}
    (h : Moves s s' [] [] [.grantData n a p k sz source blockAddr]) (hn : 1 ≤ n) :
    Grants s s' n source p blockAddr := by
  refine ⟨h.perm, h.cOngoings, fun src => ?_, fun R hR hblk => h.ok hR trivial fun c hc => ?_⟩
  · have hb := h.beats src
    simp only [List.map_cons, List.map_nil, List.sum_cons, List.sum_nil, Callback.grantBeats] at hb
    omega
  · rw [List.mem_singleton.mp hc]
    exact ⟨hn, hblk⟩

namespace Adapter

variable {cfg : Config} {s s' : Adapter}

/-- Only the random stream changes. -/
theorem choice_spec {ε : Type} {f f' : FreeList ε} {ret : Nat} {s₁ : Adapter}
    (h : s.choice f = .ok (ret, f', s₁)) : ∃ random, s₁ = { s with random } := by
  unfold choice at h
  rw [bind_ok] at h
  obtain ⟨_, _, h⟩ := h
  cases h
  exact ⟨_, rfl⟩

theorem acquireBlock_grants {b : ABeat} (h : s.acquireBlock cfg b = .ok s') :
    Grants s s' (cfg.burstLen b.size) b.source (grantParam b) (cfg.blockAddr b.address) := by
  unfold acquireBlock at h
  rw [bind_ok] at h
  obtain ⟨⟨dSink, dSinks, s₁⟩, hchoice, h⟩ := h
  obtain ⟨random, rfl⟩ := choice_spec hchoice
  have hk : Shuffles s { s with dSinks, random } := shuffles_of_keeps ⟨rfl, rfl, rfl⟩ (.refl _)
  refine hk.trans_grants ?_
  simp only at h
  split at h
  · obtain ⟨hk', hd⟩ := retrieveBlock_spec h
    have hm : Moves _ s' [] [] [_] := hk'.moves hd
    exact hm.grants_of_defer (le_max_right _ _)
  · cases h
    obtain ⟨new, hm, hnew⟩ := @grantDataCb_spec cfg { s with dSinks, random } (cfg.burstLen b.size) (cfg.addrAligned b.address) (grantParam b) dSink b.size b.source
      (cfg.blockAddr b.address)
    exact hm.grants_of_push hnew

theorem acquirePerm_grants {b : ABeat} (h : s.acquirePerm cfg b = .ok s') :
    Grants s s' 1 b.source (grantParam b) (cfg.blockAddr b.address) := by
  unfold acquirePerm at h
  rw [bind_ok] at h
  obtain ⟨⟨dSink, dSinks, s₁⟩, hchoice, h⟩ := h
  obtain ⟨random, rfl⟩ := choice_spec hchoice
  simp only at h
  split at h
  · cases h
  · cases h
    have hall : ∀ msg ∈ [({ opcode := .grant, param := grantParam b, size := b.size
                            source := b.source, sink := dSink } : DMessage)],
        msg.isGrant = true ∧ msg.source = b.source ∧ msg.param = grantParam b := by
      intro msg hmsg
      rw [List.mem_singleton.mp hmsg]
      exact ⟨rfl, rfl, rfl⟩
    exact Moves.grants_of_push ⟨fun _ => rfl, rfl, rfl, .refl _⟩ (grantEntries_isGrant hall)

/-- **A beat of channel A that is an Acquire.** -/
theorem aOpcode_grants {b : ABeat} (hb : b.opcode = .acquireBlock ∨ b.opcode = .acquirePerm)
    (h : s.aOpcode cfg b = .ok s') :
    Grants s s' (if b.opcode = .acquireBlock then cfg.burstLen b.size else 1) b.source
      (grantParam b) (cfg.blockAddr b.address) := by
  have hsame : ∀ {x : Adapter} {n : Nat}, Except.ok s = (Except.ok x : Except Error Adapter) →
      Grants s x n b.source (grantParam b) (cfg.blockAddr b.address) := by
    intro x n hx
    cases hx
    exact (shuffles_of_keeps ⟨rfl, rfl, rfl⟩ (.refl _)).grants ..
  unfold aOpcode at h
  rcases hb with hb | hb
  · simp only [hb] at h ⊢
    split at h
    · exact acquireBlock_grants h
    · exact hsame h
  · simp only [hb, reduceCtorEq, if_false] at h ⊢
    split at h
    · exact acquirePerm_grants h
    · exact hsame h

/-! ## 6. Operations that change permissions -/

/-- **The client gives a block back**: no Acquire may be on it. -/
theorem returnBlock_ok {b : CBeat} {R : Nat → Nat → Nat → Prop} (hR : GrantsOk R s)
    (hno : b.param = TtoB ∨ b.param = TtoN → ∀ src cap, ¬ R src (cfg.blockAddr b.address) cap) :
    GrantsOk R (s.returnBlock cfg b) := by
  unfold returnBlock
  split
  · rename_i hp
    refine ⟨hR.queue.mono fun src blk cap hblk htrunk => ?_, hR.deferred⟩
    have hne : blk ≠ cfg.blockAddr b.address := fun e => hno hp src cap (e ▸ hblk)
    show (s.blockPerm.set (cfg.blockAddr b.address) .tip).getD blk .tip = .trunk
    rw [Dict.getD_set, if_neg hne]
    exact htrunk
  · exact hR

theorem returnBlock_perm {b : CBeat} {a : Nat}
    (ha : b.param = TtoB ∨ b.param = TtoN → a ≠ cfg.blockAddr b.address) :
    (s.returnBlock cfg b).perm a = s.perm a := by
  unfold returnBlock
  split
  · rename_i hp
    show (s.blockPerm.set (cfg.blockAddr b.address) .tip).getD a .tip = s.perm a
    rw [Dict.getD_set, if_neg (ha hp)]
    rfl
  · rfl

@[simp] theorem returnBlock_grantBeats (b : CBeat) (src : Nat) :
    (s.returnBlock cfg b).grantBeats src = s.grantBeats src := by
  unfold returnBlock
  split <;> rfl

@[simp] theorem returnBlock_cOngoings (b : CBeat) :
    (s.returnBlock cfg b).cOngoings = s.cOngoings := by
  unfold returnBlock
  split <;> rfl

/-- **What popping an entry of the D queue does**: no permission is lost, one beat less is to be
    driven, a grant to write finds its block owned by the client, and a block that the client comes
    to own is the one granted. -/
structure Popped (s s' : Adapter) (msg : Option DMessage) : Prop where
  perm : ∀ a, s.perm a = .trunk → s'.perm a = .trunk
  cOngoings : s'.cOngoings = s.cOngoings
  beats : ∀ src, DEntry.grantBeats src (msg, none) + s'.grantBeats src = s.grantBeats src
  ok : ∀ R, GrantsOk R s → GrantsOk R s' ∧
    ∀ m, msg = some m → m.isGrant → ∀ blk cap, R m.source blk cap →
      m.param = cap ∧ (m.param = toT → s'.perm blk = .trunk)
  trunk : ∀ R a, GrantsOk R s → s'.perm a = .trunk → s.perm a ≠ .trunk →
    ∃ m, msg = some m ∧ m.isGrant = true ∧ ∀ blk cap, R m.source blk cap → blk = a ∧ cap = toT

theorem popped_of_entry {e : DEntry} (hq : s.dQueue = e :: s'.dQueue) (hd : s'.deferred = s.deferred)
    (ho : s'.cOngoings = s.cOngoings)
    (hp : ∀ a, s'.perm a = .trunk ↔ owned (fun a => s.perm a = .trunk) e a) : Popped s s' e.1 := by
  refine ⟨fun a ha => (hp a).mpr (.inl ha), ho, fun src => ?_, fun R hR => ?_,
    fun R a hR ha hna => ?_⟩
  · unfold grantBeats
    rw [hq, hd, List.map_cons, List.sum_cons, ← Nat.add_assoc]
    rfl
  · have hqueue := hR.queue
    rw [hq] at hqueue
    refine ⟨⟨hqueue.2.2.mono fun _ a _ _ ha => (hp a).mpr ha, fun c hc => hR.deferred c (hd ▸ hc)⟩,
      fun m hm hg blk cap hblk => ⟨hqueue.1.param m hm hg blk cap hblk, fun hT => ?_⟩⟩
    exact (hp blk).mpr (hqueue.2.1 m hm hg hT blk cap hblk)
  · have hqueue := hR.queue
    rw [hq] at hqueue
    rcases (hp a).mp ha with ha | ⟨_, ha⟩
    · exact absurd ha hna
    · exact hqueue.1.update a _ ha

/-- An entry that changes no permission. -/
theorem owned_of_keeps {P : Nat → Prop} {e : DEntry} (he : ∀ a, e.2 ≠ some (.updatePerm a toT))
    (a : Nat) : P a ↔ owned P e a := by
  refine ⟨.inl, fun ha => ?_⟩
  rcases ha with ha | ⟨_, ha⟩
  · exact ha
  · exact absurd ha (he a)

theorem dPop_popped {msg : Option DMessage} (h : s.dPop = .ok (msg, s')) : Popped s s' msg := by
  unfold dPop at h
  split at h
  · cases h
    refine ⟨fun a ha => ha, rfl, fun src => Nat.zero_add _, fun R hR => ⟨hR, fun m hm => ?_⟩,
      fun R a _ ha hna => absurd ha hna⟩
    cases hm
  · rename_i cb q hq
    cases h
    refine popped_of_entry (e := (none, cb)) hq rfl rfl fun a => ⟨.inl, fun ha => ?_⟩
    rcases ha with ha | ⟨hsome, _⟩
    · exact ha
    · cases hsome
  · rename_i m q hq
    cases h
    exact popped_of_entry (e := (some m, none)) hq rfl rfl (owned_of_keeps fun a => (nomatch ·))
  · rename_i m cb q hq
    rw [bind_ok] at h
    obtain ⟨s₁, h₁, h⟩ := h
    cases h
    cases cb with
    | updateMem burst =>
        simp only [callD, updateMem] at h₁
        split at h₁
        · cases h₁
          exact popped_of_entry (e := (some m, some (.updateMem burst))) hq rfl rfl
            (owned_of_keeps fun a => (nomatch ·))
        · cases h₁
    | updatePerm blk param =>
        simp only [callD, updatePerm, Except.ok.injEq] at h₁
        split at h₁
        · rename_i hT
          subst h₁ hT
          refine popped_of_entry (e := (some m, some (.updatePerm blk toT))) hq rfl rfl fun a => ?_
          show (s.blockPerm.set blk .trunk).getD a .tip = .trunk ↔ _
          rw [Dict.getD_set]
          unfold owned
          split
          · rename_i ha
            rw [ha]
            exact ⟨fun _ => .inr ⟨rfl, rfl⟩, fun _ => rfl⟩
          · rename_i hne
            refine ⟨.inl, fun ha => ?_⟩
            rcases ha with ha | ⟨_, ha⟩
            · exact ha
            · cases ha
              exact absurd rfl hne
        · rename_i hT
          subst h₁
          refine popped_of_entry (e := (some m, some (.updatePerm blk param))) hq rfl rfl
            (owned_of_keeps fun a hs => ?_)
          cases hs
          exact hT rfl

/-- The words of the memory and the counts of channel C say nothing about grants. -/
theorem carries_of_eq (hp : s'.blockPerm = s.blockPerm) (hq : s'.dQueue = s.dQueue)
    (hd : s'.deferred = s.deferred) : Carries s s' := by
  have hperm : ∀ a, s'.perm a = s.perm a := fun a => by unfold perm; rw [hp]
  refine ⟨hperm, fun src => ?_, fun R hR => ⟨?_, fun c hc => hR.deferred c (hd ▸ hc)⟩⟩
  · unfold grantBeats
    rw [hq, hd]
  · rw [hq]
    refine hR.queue.mono fun _ blk _ _ hblk => ?_
    rw [hperm]
    exact hblk

/-- After this beat, the `n + 1`st, more of the message are to come. -/
def Continues (cfg : Config) (b : CBeat) (n : Nat) : Prop :=
  Client.hasData b.opcode = true ∧ n + 1 ≠ cfg.burstLen b.size

/-- What a beat of channel C does: the last one of a message gives the block back. -/
inductive Responds (cfg : Config) (s s' : Adapter) (b : CBeat) (n : Nat) : Prop where
  | last (hlast : ¬ Continues cfg b n) (hs : Carries (s.returnBlock cfg b) s')
      (ho : s'.cOngoings = .empty)
  | more (hmore : Continues cfg b n) (hs : Carries s s')
      (ho : s'.cOngoings = counts b.source (n + 1))

/-- A message without data is one beat. -/
theorem responds_of_shuffles {b : CBeat} {n : Nat} (ho : s.cOngoings = counts b.source n)
    (hn : n ≠ 0 → Client.hasData b.opcode = true) (hdata : Client.hasData b.opcode = false)
    (hs : Shuffles (s.returnBlock cfg b) s') : Responds cfg s s' b n := by
  have h0 : n = 0 := by
    by_contra hne
    rw [hn hne] at hdata
    cases hdata
  refine .last (fun hmore => ?_) hs.carries ?_
  · rw [hmore.1] at hdata
    cases hdata
  · rw [hs.cOngoings, returnBlock_cOngoings, ho, h0]
    rfl

/-- A beat of a message with data: the last one does what follows, another one is counted. -/
theorem dataBeat_responds {b : CBeat} {last : Adapter → Except Error Adapter} {n : Nat}
    (hdata : Client.hasData b.opcode = true) (ho : s.cOngoings = counts b.source n)
    (hlast : ∀ {s₁ s₂}, last s₁ = .ok s₂ → Shuffles s₁ s₂)
    (h : s.dataBeat cfg b last = .ok s') : Responds cfg s s' b n := by
  have hcount : s.cOngoings.getD b.source 0 = n := by
    rw [ho, counts_getD]
  unfold dataBeat at h
  simp only [hcount] at h
  split at h
  · rename_i hn
    rw [bind_ok] at h
    obtain ⟨s₂, h₂, h⟩ := h
    cases h
    have hs := hlast h₂
    have hmem : Carries (s.returnBlock cfg b) ({ s with
        memory := s.memory.set (cfg.addrAligned b.address + n * cfg.datalen) b.data }.returnBlock
          cfg b) := by
      unfold returnBlock
      split <;> exact carries_of_eq rfl rfl rfl
    have hcs : s₂.cOngoings = counts b.source n := by
      rw [hs.cOngoings, returnBlock_cOngoings]
      exact ho
    refine .last (fun hmore => hmore.2 hn) ((hmem.trans hs.carries).trans (carries_of_eq rfl rfl rfl))
      ?_
    show (if n = 0 then s₂.cOngoings else s₂.cOngoings.erase b.source) = .empty
    rw [hcs, counts_erase]
    split
    · rename_i h0
      rw [h0]
      rfl
    · rfl
  · rename_i hn
    cases h
    refine .more ⟨hdata, hn⟩ (carries_of_eq rfl rfl rfl) ?_
    show s.cOngoings.set b.source (n + 1) = _
    rw [ho, counts_set]

/-- **A beat of channel C** that answers a probe or releases a block. -/
theorem cOpcode_responds {b : CBeat} {n : Nat} (ho : s.cOngoings = counts b.source n)
    (hn : n ≠ 0 → Client.hasData b.opcode = true) (hb : b.opcode ≠ .reserved)
    (h : s.cOpcode cfg b = .ok s') : Responds cfg s s' b n := by
  unfold cOpcode at h
  split at h
  · cases h
  · cases h
  · cases h
  · rename_i hop
    exact absurd hop hb
  · rename_i hop
    exact responds_of_shuffles ho hn (by rw [hop]; rfl) (answerProbe_shuffles h)
  · rename_i hop
    exact dataBeat_responds (by rw [hop]; rfl) ho answerProbe_shuffles h
  · rename_i hop
    cases h
    exact responds_of_shuffles ho hn (by rw [hop]; rfl) (pushD_shuffles rfl)
  · rename_i hop
    refine dataBeat_responds (by rw [hop]; rfl) ho (fun {s₁ s₂} hs => ?_) h
    cases hs
    exact pushD_shuffles rfl

theorem cPortMonitor_ok {b : CBeat} (h : s.cPortMonitor cfg b = .ok s') :
    s.cOpcode cfg b = .ok s' := by
  unfold cPortMonitor at h
  simp only [bind_ok] at h
  obtain ⟨_, _, _, _, h⟩ := h
  exact h

/-! ## 7. The other operations -/

theorem ePortMonitor_shuffles {sink : Nat} (h : s.ePortMonitor sink = .ok s') : Shuffles s s' := by
  unfold ePortMonitor at h
  rw [bind_ok] at h
  obtain ⟨⟨dSinks, _⟩, _, h⟩ := h
  simp only at h
  split at h
  · cases h
    exact shuffles_of_keeps ⟨rfl, rfl, rfl⟩ (.refl _)
  · cases h

theorem bPop_shuffles : Shuffles s s.bPop.2 := by
  unfold bPop
  split <;> exact shuffles_of_keeps ⟨rfl, rfl, rfl⟩ (.refl _)

theorem hostInterface_shuffles (h : s.hostInterface cfg = .ok s') : Shuffles s s' := by
  unfold hostInterface at h
  simp only at h
  split at h
  · split at h
    · rw [bind_ok] at h
      obtain ⟨s₁, h₁, h⟩ := h
      cases h
      exact (retrieveBlock_shuffles h₁ rfl).trans (shuffles_of_keeps ⟨rfl, rfl, rfl⟩ (.refl _))
    · cases h
      exact shuffles_of_keeps ⟨rfl, rfl, rfl⟩ (.refl _)
  · cases h
    exact shuffles_of_keeps ⟨rfl, rfl, rfl⟩ (.refl _)

theorem dataRetriever_shuffles (h : s.dataRetriever cfg = .ok s') : Shuffles s s' := by
  unfold dataRetriever at h
  split at h
  · have hk : Shuffles s { s with retriever := false } :=
      shuffles_of_keeps ⟨rfl, rfl, rfl⟩ (.refl _)
    exact hk.trans (probeBlocksRec_shuffles h)
  · cases h
    exact shuffles_of_keeps ⟨rfl, rfl, rfl⟩ (.refl _)

end Adapter

end Difuzz.TileLink
