/-
  File:      DifuzzRtl/TileLink/Ownership.lean
  Subject:   The adapter's view of ownership against the client's.

  The client's state of a block and the adapter's permission change at different moments: the
  adapter's with the first beat of a grant when it leaves the queue and with the last beat of an
  answer, the client's with the last beat of the grant and the first beat of its answer.

  * `Inv` -- what relates the two through the queues, for every reachable state (`reachable_inv`).
  * `owned_trunk` -- a block the client may write is never the adapter's.
  * `Inv.trunk` -- the converse: a block that is not the adapter's is the client's, or the client
    is giving it back, or it is being granted.
-/
import Mathlib.Algebra.Order.BigOperators.Group.List
import DifuzzRtl.TileLink.Grants

namespace Difuzz.TileLink

/-! ## 1. The invariant -/

namespace Client

/-- The source has acquired the block, and the answer is not complete. -/
def Acquires (k : Client) (src blk cap : Nat) : Prop :=
  ∃ a, k.acquires src = some a ∧ a.block = blk ∧ a.cap = cap

/-- The beats of grants that a source still waits for. -/
def beatsLeft (k : Client) (src : Nat) : Nat := (k.acquires src).elim 0 (·.beats)

/-- The client is sending a burst that gives the block back. -/
def Returns (cfg : Config) (k : Client) (blk : Nat) : Prop :=
  ∃ b n, k.burst = some (b, n) ∧ (b.param = TtoB ∨ b.param = TtoN) ∧ cfg.blockAddr b.address = blk

end Client

/-- The beats of a grant to the source on the wires of channel D. -/
def System.wireBeats (st : System) (src : Nat) : Nat := DEntry.grantBeats src (st.dWire, none)

theorem System.wireBeats_of_grant (st : System) {msg : DMessage} (hm : st.dWire = some msg)
    (hg : msg.isGrant = true) : st.wireBeats msg.source = 1 := by
  unfold wireBeats DEntry.grantBeats
  rw [hm]
  exact if_pos ⟨hg, rfl⟩

/-- The adapter's count of the beats of a burst on channel C is the client's. -/
def BurstOk (k : Client) (ongoings : Dict Nat Nat) : Prop :=
  match k.burst with
  | none => ongoings = .empty
  | some (b, n) => ongoings = counts b.source n ∧ n ≠ 0 ∧ Client.hasData b.opcode = true

/-- **The invariant of the adapter and its client.** -/
structure Inv (cfg : Config) (st : System) : Prop where
  owned : ∀ blk, st.client.held blk = .T → st.adapter.perm blk = .trunk
  trunk : ∀ blk, st.adapter.perm blk = .trunk → st.client.held blk = .T ∨
    st.client.Returns cfg blk ∨ ∃ src, st.client.Acquires src blk toT
  idle : ∀ blk, st.client.held blk = .T ∨ st.client.Returns cfg blk →
    ∀ src cap, ¬ st.client.Acquires src blk cap
  given : ∀ blk, st.client.Returns cfg blk → st.client.held blk ≠ .T
  unique : ∀ src src' blk cap cap', st.client.Acquires src blk cap →
    st.client.Acquires src' blk cap' → src = src'
  beats : ∀ src, st.wireBeats src + st.adapter.grantBeats src ≤ st.client.beatsLeft src
  grants : GrantsOk st.client.Acquires st.adapter
  wire : ∀ msg, st.dWire = some msg → msg.isGrant → ∀ blk cap, st.client.Acquires msg.source blk cap →
    msg.param = cap ∧ (msg.param = toT → st.adapter.perm blk = .trunk)
  burst : BurstOk st.client st.adapter.cOngoings

/-- Grants that are under way agree with other Acquires too when these differ only for sources
    without a grant under way. -/
theorem GrantsOk.congr {R R' : Nat → Nat → Nat → Prop} {s : Adapter} (h : GrantsOk R s)
    (hR : ∀ src, s.grantBeats src ≠ 0 → ∀ blk cap, R' src blk cap → R src blk cap) :
    GrantsOk R' s := by
  -- an entry or a callback of a source counts for it
  have hentry : ∀ e ∈ s.dQueue, ∀ msg, e.1 = some msg → msg.isGrant = true →
      s.grantBeats msg.source ≠ 0 := by
    intro e he msg hm hg h0
    have hle := List.single_le_sum (fun _ _ => Nat.zero_le _) _
      (List.mem_map_of_mem (f := DEntry.grantBeats msg.source) he)
    have hone : DEntry.grantBeats msg.source e = 1 := by
      unfold DEntry.grantBeats
      rw [hm]
      exact if_pos ⟨hg, rfl⟩
    unfold Adapter.grantBeats at h0
    omega
  have hqueue : ∀ (q : List DEntry) (P : Nat → Prop), (∀ e ∈ q, e ∈ s.dQueue) → QueueOk R P q →
      QueueOk R' P q := by
    intro q
    induction q with
    | nil => exact fun _ _ _ => trivial
    | cons e q ih =>
        intro P hq hok
        obtain ⟨⟨hp, hu⟩, hT, hrest⟩ := hok
        have hback : ∀ msg, e.1 = some msg → msg.isGrant = true → ∀ blk cap,
            R' msg.source blk cap → R msg.source blk cap :=
          fun msg hm hg => hR _ (hentry e (hq e List.mem_cons_self) msg hm hg)
        refine ⟨⟨fun msg hm hg blk cap hb => hp msg hm hg blk cap (hback msg hm hg blk cap hb),
            fun a p ha => ?_⟩,
          fun msg hm hg ht blk cap hb => hT msg hm hg ht blk cap (hback msg hm hg blk cap hb),
          ih _ (fun e' he' => hq e' (List.mem_cons_of_mem _ he')) hrest⟩
        obtain ⟨msg, hm, hg, hmsg⟩ := hu a p ha
        exact ⟨msg, hm, hg, fun blk cap hb => hmsg blk cap (hback msg hm hg blk cap hb)⟩
  refine ⟨hqueue _ _ (fun _ he => he) h.queue, fun c hc => ?_⟩
  have hcall := h.deferred c hc
  cases c with
  | grantData n a p k sz source blk =>
      refine ⟨hcall.1, fun blk' cap hb => hcall.2 blk' cap (hR source (fun h0 => ?_) blk' cap hb)⟩
      have hle := List.single_le_sum (fun _ _ => Nat.zero_le _) _
        (List.mem_map_of_mem (f := Callback.grantBeats source) hc)
      have hn : Callback.grantBeats source (.grantData n a p k sz source blk) = n := if_pos rfl
      have hpos := hcall.1
      unfold Adapter.grantBeats at h0
      omega
  | _ => trivial

/-! ## 2. Steps that keep permissions -/

variable {cfg : Config} {st : System}

/-- A step of the adapter that moves grants at most. -/
theorem Inv.shuffles (h : Inv cfg st) {s' : Adapter} (hs : Shuffles st.adapter s') :
    Inv cfg { st with adapter := s' } where
  owned blk hT := (hs.perm blk).trans (h.owned blk hT)
  trunk blk hT := h.trunk blk ((hs.perm blk).symm.trans hT)
  idle := h.idle
  given := h.given
  unique := h.unique
  beats src := by
    show st.wireBeats src + s'.grantBeats src ≤ _
    rw [hs.beats]
    exact h.beats src
  grants := hs.ok _ h.grants
  wire msg hm hg blk cap hb := by
    obtain ⟨hp, hT⟩ := h.wire msg hm hg blk cap hb
    exact ⟨hp, fun ht => (hs.perm blk).trans (hT ht)⟩
  burst := by
    show BurstOk st.client s'.cOngoings
    rw [hs.cOngoings]
    exact h.burst

/-- What the client's tables are after an Acquire. -/
theorem Client.acquires_acquire {k : Client} {b : ABeat} {src blk cap : Nat} :
    (k.acquire cfg b).Acquires src blk cap ↔
      if src = b.source then blk = cfg.blockAddr b.address ∧ cap = Adapter.grantParam b
      else k.Acquires src blk cap := by
  unfold Client.Acquires Client.acquire
  by_cases hsrc : src = b.source
  · subst hsrc
    simp only [Function.update_self, if_true, Option.some.injEq]
    constructor
    · intro h
      obtain ⟨a, rfl, hblk, hcap⟩ := h
      exact ⟨hblk.symm, hcap.symm⟩
    · intro h
      exact ⟨_, rfl, h.1.symm, h.2.symm⟩
  · rw [if_neg hsrc]
    simp only [Function.update_of_ne hsrc]

section Acquires

variable {b : ABeat} (hb : st.client.MayAcquire cfg b)

include hb

/-- A block that may be written is not acquired, nor one that goes back. -/
theorem Client.MayAcquire.not_held : ¬ (st.client.held (cfg.blockAddr b.address) = .T ∨
    st.client.Returns cfg (cfg.blockAddr b.address)) := by
  intro hh
  rcases hh with hT | ⟨b₀, n, hb₀, _, haddr⟩
  · have hgrow := hb.param
    rw [hT] at hgrow
    unfold grow at hgrow
    split at hgrow <;> cases hgrow
  · exact hb.burst b₀ n hb₀ haddr

/-- Nor one that is being acquired. -/
theorem Client.MayAcquire.not_acquires (src cap : Nat) :
    ¬ st.client.Acquires src (cfg.blockAddr b.address) cap := by
  intro ha
  obtain ⟨a, ha, hblk, _⟩ := ha
  exact hb.outstanding src a ha hblk

theorem Client.MayAcquire.beatsLeft : st.client.beatsLeft b.source = 0 := by
  unfold Client.beatsLeft
  rw [hb.source]
  rfl

theorem Client.MayAcquire.source_ne {src blk cap : Nat} (ha : st.client.Acquires src blk cap) :
    src ≠ b.source := by
  intro e
  obtain ⟨a, ha, _⟩ := ha
  rw [e, hb.source] at ha
  cases ha

/-- Nobody has granted anything to the source. -/
theorem Inv.acquire_free (h : Inv cfg st) :
    st.wireBeats b.source = 0 ∧ st.adapter.grantBeats b.source = 0 := by
  have hle := h.beats b.source
  rw [hb.beatsLeft] at hle
  omega

theorem Inv.acquire_unique (h : Inv cfg st) {src src' blk cap cap' : Nat}
    (ha : (st.client.acquire cfg b).Acquires src blk cap)
    (ha' : (st.client.acquire cfg b).Acquires src' blk cap') : src = src' := by
  rw [Client.acquires_acquire] at ha ha'
  split at ha
  · rename_i e
    split at ha'
    · rename_i e'
      rw [e, e']
    · exact absurd (ha.1 ▸ ha') (hb.not_acquires src' cap')
  · split at ha'
    · exact absurd (ha'.1 ▸ ha) (hb.not_acquires src cap)
    · exact h.unique src src' blk cap cap' ha ha'

/-- **The client acquires a block.** -/
theorem Inv.acquire (h : Inv cfg st) {s' : Adapter} (hs : st.adapter.aPortMonitor cfg b = .ok s') :
    Inv cfg { st with adapter := s', client := st.client.acquire cfg b } := by
  have hg := (Adapter.touch_shuffles _).trans_grants
    (Adapter.aOpcode_grants hb.opcode (Adapter.aPortMonitor_ok hs))
  have hfree := h.acquire_free hb
  have hsub : ∀ src, st.adapter.grantBeats src ≠ 0 → ∀ blk cap,
      (st.client.acquire cfg b).Acquires src blk cap → st.client.Acquires src blk cap := by
    intro src hne blk cap ha
    have hsrc : src ≠ b.source := fun e => hne (e ▸ hfree.2)
    rw [Client.acquires_acquire, if_neg hsrc] at ha
    exact ha
  refine ⟨fun blk hT => (hg.perm blk).trans (h.owned blk hT), fun blk hT => ?_,
    fun blk hblk src cap ha => ?_, h.given, fun _ _ _ _ _ ha ha' => h.acquire_unique hb ha ha',
    fun src => ?_, hg.ok _ (h.grants.congr hsub) fun blk cap ha => ?_,
    fun msg hm hgr blk cap ha => ?_, ?_⟩
  · refine (h.trunk blk ((hg.perm blk).symm.trans hT)).imp id (.imp id fun hh => ?_)
    obtain ⟨src, hh⟩ := hh
    refine ⟨src, Client.acquires_acquire.mpr ?_⟩
    rw [if_neg (hb.source_ne hh)]
    exact hh
  · rw [Client.acquires_acquire] at ha
    split at ha
    · rw [ha.1] at hblk
      exact hb.not_held hblk
    · exact h.idle blk hblk src cap ha
  · have hbeats := hg.beats src
    have hle := h.beats src
    show st.wireBeats src + s'.grantBeats src ≤ (st.client.acquire cfg b).beatsLeft src
    unfold Client.beatsLeft Client.acquire
    by_cases hsrc : src = b.source
    · subst hsrc
      simp only [Function.update_self, Option.elim_some]
      rw [if_pos rfl] at hbeats
      omega
    · simp only [Function.update_of_ne hsrc]
      rw [if_neg fun e => hsrc e.symm] at hbeats
      unfold Client.beatsLeft at hle
      omega
  · rw [Client.acquires_acquire, if_pos rfl] at ha
    exact ha
  · have hsrc : msg.source ≠ b.source := by
      intro e
      have h1 := st.wireBeats_of_grant hm hgr
      rw [e, hfree.1] at h1
      cases h1
    rw [Client.acquires_acquire, if_neg hsrc] at ha
    obtain ⟨hp, hT⟩ := h.wire msg hm hgr blk cap ha
    exact ⟨hp, fun ht => (hg.perm blk).trans (hT ht)⟩
  · show BurstOk st.client s'.cOngoings
    rw [hg.cOngoings]
    exact h.burst

end Acquires

/-! ## 3. Answers of the client -/

/-- A report that gives a block back starts from a block that may be written, and no other report
    that starts from one does. -/
theorem report_T {p : Nat} {from_ to_ : Held} (h : report p = some (from_, to_)) :
    (to_ = .T → from_ = .T) ∧ (p = TtoB ∨ p = TtoN → from_ = .T ∧ to_ ≠ .T) ∧
    (from_ = .T → ¬ (p = TtoB ∨ p = TtoN) → to_ = .T) := by
  unfold report at h
  split at h <;> cases h <;> simp

/-- The permissions after a block has been given back. -/
theorem Adapter.returnBlock_trunk {s : Adapter} {b : CBeat} {a : Nat}
    (h : (s.returnBlock cfg b).perm a = .trunk) :
    s.perm a = .trunk ∧ ¬ ((b.param = TtoB ∨ b.param = TtoN) ∧ cfg.blockAddr b.address = a) := by
  have hne : ¬ ((b.param = TtoB ∨ b.param = TtoN) ∧ cfg.blockAddr b.address = a) := by
    intro ha
    unfold Adapter.returnBlock at h
    rw [if_pos ha.1, ← ha.2] at h
    change (s.blockPerm.set _ .tip).getD _ .tip = .trunk at h
    rw [Dict.getD_set, if_pos rfl] at h
    cases h
  rw [Adapter.returnBlock_perm fun hp e => hne ⟨hp, e.symm⟩] at h
  exact ⟨h, hne⟩

/-- The client after a beat, as far as ownership goes. -/
structure Answered (cfg : Config) (k k' : Client) (b : CBeat) (n : Nat) : Prop where
  acquires : k'.acquires = k.acquires
  held : ∀ blk, k'.held blk = .T → k.held blk = .T ∧
    ¬ ((b.param = TtoB ∨ b.param = TtoN) ∧ cfg.blockAddr b.address = blk)
  kept : ∀ blk, k.held blk = .T ∨ k.Returns cfg blk → k'.held blk = .T ∨
    ((b.param = TtoB ∨ b.param = TtoN) ∧ cfg.blockAddr b.address = blk)
  gives : (b.param = TtoB ∨ b.param = TtoN) →
    k.held (cfg.blockAddr b.address) = .T ∨ k.Returns cfg (cfg.blockAddr b.address)
  more : Adapter.Continues cfg b n → ∃ b₀, k'.burst = some (b₀, n + 1) ∧ b₀.source = b.source ∧
    b₀.param = b.param ∧ b₀.address = b.address ∧ Client.hasData b₀.opcode = true
  last : ¬ Adapter.Continues cfg b n → k'.burst = none

/-- The first beat of an answer. -/
theorem answered_first {k : Client} {b : CBeat} (hk : k.burst = none) (hb : k.MayRespond cfg b) :
    Answered cfg k (k.respond cfg b) b 0 := by
  unfold Client.MayRespond at hb
  rw [hk] at hb
  obtain ⟨⟨next, hrep⟩, _⟩ := hb
  obtain ⟨hfrom, hgive, hkeep⟩ := report_T hrep
  have hno : ∀ blk, ¬ k.Returns cfg blk := by
    intro blk hr
    obtain ⟨b₀, n, hb₀, _⟩ := hr
    rw [hk] at hb₀
    cases hb₀
  have hheld : (k.respond cfg b).held = Function.update k.held (cfg.blockAddr b.address) next := by
    unfold Client.respond
    rw [hk, hrep]
    rfl
  have hburst : (k.respond cfg b).burst =
      if Client.hasData b.opcode ∧ cfg.burstLen b.size ≠ 1 then some (b, 1) else none := by
    unfold Client.respond
    rw [hk]
  have hcont : Adapter.Continues cfg b 0 ↔ Client.hasData b.opcode ∧ cfg.burstLen b.size ≠ 1 :=
    ⟨fun h => ⟨h.1, fun e => h.2 e.symm⟩, fun h => ⟨h.1, fun e => h.2 e.symm⟩⟩
  refine ⟨?_, fun blk hT => ?_, fun blk hT => ?_, fun hp => .inl (hgive hp).1, fun hm => ?_,
    fun hl => ?_⟩
  · unfold Client.respond
    rw [hk]
  · rw [hheld] at hT
    by_cases hblk : blk = cfg.blockAddr b.address
    · subst hblk
      rw [Function.update_self] at hT
      exact ⟨hfrom hT, fun hp => (hgive hp.1).2 hT⟩
    · rw [Function.update_of_ne hblk] at hT
      exact ⟨hT, fun hp => hblk hp.2.symm⟩
  · have hT' := hT.resolve_right (hno blk)
    rw [hheld]
    by_cases hblk : blk = cfg.blockAddr b.address
    · subst hblk
      rw [Function.update_self]
      by_cases hp : b.param = TtoB ∨ b.param = TtoN
      · exact .inr ⟨hp, rfl⟩
      · exact .inl (hkeep hT' hp)
    · rw [Function.update_of_ne hblk]
      exact .inl hT'
  · rw [hburst, if_pos (hcont.mp hm)]
    exact ⟨b, rfl, rfl, rfl, rfl, hm.1⟩
  · rw [hburst, if_neg fun hc => hl (hcont.mpr hc)]

/-- A further beat of an answer. -/
theorem answered_next {k : Client} {b b₀ : CBeat} {n : Nat} (hk : k.burst = some (b₀, n))
    (hdata : Client.hasData b₀.opcode = true) (hgiven : ∀ blk, k.Returns cfg blk → k.held blk ≠ .T)
    (hb : k.MayRespond cfg b) : Answered cfg k (k.respond cfg b) b n := by
  unfold Client.MayRespond at hb
  rw [hk] at hb
  obtain ⟨hop, hparam, hsize, hsource, haddr⟩ := hb
  have hburst : (k.respond cfg b).burst =
      if n + 1 = cfg.burstLen b.size then none else some (b₀, n + 1) := by
    unfold Client.respond
    rw [hk]
  have hheld : (k.respond cfg b).held = k.held := by
    unfold Client.respond
    rw [hk]
  have hret : ∀ {blk}, (b.param = TtoB ∨ b.param = TtoN) ∧ cfg.blockAddr b.address = blk →
      k.Returns cfg blk :=
    fun hp => ⟨b₀, n, hk, hparam ▸ hp.1, haddr ▸ hp.2⟩
  refine ⟨?_, fun blk hT => ?_, fun blk hT => ?_, fun hp => .inr (hret ⟨hp, rfl⟩), fun hm => ?_,
    fun hl => ?_⟩
  · unfold Client.respond
    rw [hk]
  · rw [hheld] at hT
    exact ⟨hT, fun hp => hgiven blk (hret hp) hT⟩
  · rw [hheld]
    refine hT.imp id fun hr => ?_
    obtain ⟨b₁, n₁, hb₁, hp, hblk⟩ := hr
    rw [hk] at hb₁
    cases hb₁
    exact ⟨hparam.symm ▸ hp, haddr.symm ▸ hblk⟩
  · rw [hburst, if_neg hm.2]
    exact ⟨b₀, rfl, hsource.symm, hparam.symm, haddr.symm, hdata⟩
  · refine hburst.trans (if_pos ?_)
    by_contra hne
    exact hl ⟨by rw [hop]; exact hdata, hne⟩

section Answers

variable {b : CBeat} {n : Nat} {s' : Adapter} {k k' : Client}

theorem Answered.acquires_eq (hk : Answered cfg k k' b n) : k'.Acquires = k.Acquires := by
  unfold Client.Acquires
  rw [hk.acquires]

theorem Answered.beatsLeft_eq (hk : Answered cfg k k' b n) (src : Nat) :
    k'.beatsLeft src = k.beatsLeft src := by
  unfold Client.beatsLeft
  rw [hk.acquires]

/-- A block that is given back is not acquired. -/
theorem Inv.not_acquires (h : Inv cfg st) (hk : Answered cfg st.client k' b n)
    (hp : b.param = TtoB ∨ b.param = TtoN) (src cap : Nat) :
    ¬ st.client.Acquires src (cfg.blockAddr b.address) cap :=
  h.idle _ (hk.gives hp) src cap

/-- **The last beat of an answer**: with it the block is the adapter's. -/
theorem Inv.answered_last (h : Inv cfg st) (hk : Answered cfg st.client k' b n)
    (hlast : ¬ Adapter.Continues cfg b n) (hs : Carries (st.adapter.returnBlock cfg b) s')
    (ho : s'.cOngoings = .empty) : Inv cfg { st with adapter := s', client := k' } := by
  have hburst := hk.last hlast
  have hno : ∀ blk, ¬ k'.Returns cfg blk := by
    intro blk hr
    obtain ⟨b₀, m, hb₀, _⟩ := hr
    rw [hburst] at hb₀
    cases hb₀
  refine ⟨fun blk hT => ?_, fun blk hT => ?_, fun blk hblk src cap => ?_,
    fun blk hr => absurd hr (hno blk), ?_, fun src => ?_, ?_, fun msg hm hg blk cap ha => ?_, ?_⟩
  · obtain ⟨hT, hne⟩ := hk.held blk hT
    show s'.perm blk = .trunk
    rw [hs.perm, Adapter.returnBlock_perm fun hp e => hne ⟨hp, e.symm⟩]
    exact h.owned blk hT
  · obtain ⟨hT, hne⟩ := Adapter.returnBlock_trunk ((hs.perm blk).symm.trans hT)
    rcases h.trunk blk hT with hh | hh | hh
    · exact .inl ((hk.kept blk (.inl hh)).resolve_right hne)
    · exact .inl ((hk.kept blk (.inr hh)).resolve_right hne)
    · refine .inr (.inr ?_)
      show ∃ src, k'.Acquires src blk toT
      rw [hk.acquires_eq]
      exact hh
  · show ¬ k'.Acquires src blk cap
    rw [hk.acquires_eq]
    exact h.idle blk (.inl (hk.held blk (hblk.resolve_right (hno blk))).1) src cap
  · show ∀ src src' blk cap cap', k'.Acquires src blk cap → k'.Acquires src' blk cap' → src = src'
    rw [hk.acquires_eq]
    exact h.unique
  · show st.wireBeats src + s'.grantBeats src ≤ k'.beatsLeft src
    rw [hk.beatsLeft_eq, hs.beats, Adapter.returnBlock_grantBeats]
    exact h.beats src
  · show GrantsOk k'.Acquires s'
    rw [hk.acquires_eq]
    exact hs.ok _ (Adapter.returnBlock_ok h.grants (h.not_acquires hk))
  · change k'.Acquires msg.source blk cap at ha
    rw [hk.acquires_eq] at ha
    obtain ⟨hp, hT⟩ := h.wire msg hm hg blk cap ha
    refine ⟨hp, fun ht => ?_⟩
    show s'.perm blk = .trunk
    rw [hs.perm, Adapter.returnBlock_perm fun hp e => h.not_acquires hk hp _ _ (e ▸ ha)]
    exact hT ht
  · show BurstOk k' s'.cOngoings
    unfold BurstOk
    rw [hburst]
    exact ho

/-- **Any other beat of an answer**: the client is giving the block back. -/
theorem Inv.answered_more (h : Inv cfg st) (hk : Answered cfg st.client k' b n)
    (hmore : Adapter.Continues cfg b n) (hs : Carries st.adapter s')
    (ho : s'.cOngoings = counts b.source (n + 1)) :
    Inv cfg { st with adapter := s', client := k' } := by
  obtain ⟨b₀, hburst, hsource, hparam, haddr, hdata⟩ := hk.more hmore
  have hret : ∀ blk, k'.Returns cfg blk ↔
      (b.param = TtoB ∨ b.param = TtoN) ∧ cfg.blockAddr b.address = blk := by
    intro blk
    constructor
    · intro hr
      obtain ⟨b₁, m, hb₁, hp, hblk⟩ := hr
      rw [hburst] at hb₁
      cases hb₁
      exact ⟨hparam ▸ hp, haddr ▸ hblk⟩
    · exact fun hp => ⟨b₀, n + 1, hburst, hparam.symm ▸ hp.1, haddr.symm ▸ hp.2⟩
  have hgone : ∀ blk, st.client.held blk = .T ∨ st.client.Returns cfg blk →
      k'.held blk = .T ∨ k'.Returns cfg blk :=
    fun blk hh => (hk.kept blk hh).imp id (hret blk).mpr
  refine ⟨fun blk hT => ?_, fun blk hT => ?_, fun blk hblk src cap => ?_, fun blk hr hT => ?_, ?_,
    fun src => ?_, ?_, fun msg hm hg blk cap ha => ?_, ?_⟩
  · exact (hs.perm blk).trans (h.owned blk (hk.held blk hT).1)
  · rcases h.trunk blk ((hs.perm blk).symm.trans hT) with hh | hh | hh
    · exact (hgone blk (.inl hh)).imp id .inl
    · exact (hgone blk (.inr hh)).imp id .inl
    · refine .inr (.inr ?_)
      show ∃ src, k'.Acquires src blk toT
      rw [hk.acquires_eq]
      exact hh
  · show ¬ k'.Acquires src blk cap
    rw [hk.acquires_eq]
    rcases hblk with hT | hr
    · exact h.idle blk (.inl (hk.held blk hT).1) src cap
    · obtain ⟨hp, hblk⟩ := (hret blk).mp hr
      exact hblk ▸ h.not_acquires hk hp src cap
  · exact (hk.held blk hT).2 ((hret blk).mp hr)
  · show ∀ src src' blk cap cap', k'.Acquires src blk cap → k'.Acquires src' blk cap' → src = src'
    rw [hk.acquires_eq]
    exact h.unique
  · show st.wireBeats src + s'.grantBeats src ≤ k'.beatsLeft src
    rw [hk.beatsLeft_eq, hs.beats]
    exact h.beats src
  · show GrantsOk k'.Acquires s'
    rw [hk.acquires_eq]
    exact hs.ok _ h.grants
  · change k'.Acquires msg.source blk cap at ha
    rw [hk.acquires_eq] at ha
    obtain ⟨hp, hT⟩ := h.wire msg hm hg blk cap ha
    exact ⟨hp, fun ht => (hs.perm blk).trans (hT ht)⟩
  · show BurstOk k' s'.cOngoings
    unfold BurstOk
    rw [hburst]
    exact ⟨by rw [ho, hsource], Nat.succ_ne_zero n, hdata⟩

/-- A beat of an answer, on both sides. -/
theorem Inv.answered (h : Inv cfg st) (hk : Answered cfg st.client k' b n)
    (hs : Adapter.Responds cfg st.adapter s' b n) :
    Inv cfg { st with adapter := s', client := k' } := by
  cases hs with
  | last hlast hs ho => exact h.answered_last hk hlast hs ho
  | more hmore hs ho => exact h.answered_more hk hmore hs ho

end Answers

/-- **A beat on channel C**, as the client and the adapter count it. -/
theorem Inv.responds (h : Inv cfg st) {b : CBeat} {s' : Adapter} (hb : st.client.MayRespond cfg b)
    (hs : st.adapter.cPortMonitor cfg b = .ok s') :
    ∃ n, st.adapter.cOngoings = counts b.source n ∧
      Answered cfg st.client (st.client.respond cfg b) b n ∧
      Adapter.Responds cfg st.adapter s' b n := by
  have hop := Adapter.cPortMonitor_ok hs
  have hburst := h.burst
  unfold BurstOk at hburst
  cases hk : st.client.burst with
  | none =>
      rw [hk] at hburst
      have hans := answered_first hk hb
      have hres : b.opcode ≠ .reserved := by
        unfold Client.MayRespond at hb
        rw [hk] at hb
        intro e
        simp [e] at hb
      exact ⟨0, hburst, hans,
        Adapter.cOpcode_responds (hburst : _ = counts b.source 0) (fun h0 => absurd rfl h0) hres hop⟩
  | some bn =>
      obtain ⟨b₀, n⟩ := bn
      rw [hk] at hburst
      obtain ⟨ho, _, hdata⟩ := hburst
      have hans := answered_next hk hdata h.given hb
      unfold Client.MayRespond at hb
      rw [hk] at hb
      obtain ⟨hopc, _, _, hsource, _⟩ := hb
      have hdata' : Client.hasData b.opcode = true := by
        rw [hopc]
        exact hdata
      have hres : b.opcode ≠ .reserved := by
        intro e
        rw [e] at hdata'
        cases hdata'
      exact ⟨n, by rw [ho, hsource], hans,
        Adapter.cOpcode_responds (by rw [ho, hsource]) (fun _ => hdata') hres hop⟩

/-- **The client answers a probe or releases a block.** -/
theorem Inv.respond (h : Inv cfg st) {b : CBeat} {s' : Adapter} (hb : st.client.MayRespond cfg b)
    (hs : st.adapter.cPortMonitor cfg b = .ok s') :
    Inv cfg { st with adapter := s', client := st.client.respond cfg b } := by
  obtain ⟨n, _, hans, hres⟩ := h.responds hb hs
  exact h.answered hans hres

/-! ## 4. Grants that are driven and taken -/

/-- **The D driver takes an entry.** -/
theorem Inv.dPop (h : Inv cfg st) {msg : Option DMessage} {s' : Adapter}
    (hs : st.adapter.dPop = .ok (msg, s')) : Inv cfg { st with adapter := s', dWire := msg } := by
  have hp := Adapter.dPop_popped hs
  obtain ⟨hok, hwire⟩ := hp.ok _ h.grants
  have hbeats : ∀ src, DEntry.grantBeats src (msg, none) + s'.grantBeats src ≤
      st.client.beatsLeft src := by
    intro src
    rw [hp.beats]
    have hle := h.beats src
    omega
  refine ⟨fun blk hT => hp.perm blk (h.owned blk hT), fun blk hT => ?_, h.idle, h.given, h.unique,
    hbeats, hok, hwire, ?_⟩
  · by_cases hold : st.adapter.perm blk = .trunk
    · exact h.trunk blk hold
    · -- the Acquire that the grant answers is still outstanding
      obtain ⟨m, rfl, hg, hblk⟩ := hp.trunk _ blk h.grants hT hold
      have h1 : DEntry.grantBeats m.source (some m, none) = 1 := if_pos ⟨hg, rfl⟩
      have hle := hbeats m.source
      rw [h1] at hle
      cases ha : st.client.acquires m.source with
      | none =>
          unfold Client.beatsLeft at hle
          rw [ha] at hle
          simp at hle
      | some a =>
          obtain ⟨rfl, hcap⟩ := hblk a.block a.cap ⟨a, ha, rfl, rfl⟩
          exact .inr (.inr ⟨m.source, a, ha, rfl, hcap⟩)
  · show BurstOk st.client s'.cOngoings
    rw [hp.cOngoings]
    exact h.burst

/-- What the client's tables are after a beat of a grant. -/
theorem Client.receive_spec {k : Client} {msg : DMessage} {a : Acquire} (hg : msg.isGrant = true)
    (ha : k.acquires msg.source = some a) :
    k.receive msg = if a.beats = 1 then
        { k with
          acquires := Function.update k.acquires msg.source none
          held := Function.update k.held a.block (if msg.param = toT then .T else .B) }
      else
        { k with
          acquires := Function.update k.acquires msg.source (some { a with beats := a.beats - 1 }) } := by
  unfold Client.receive
  rw [if_pos hg, ha]

section Take

variable {msg : DMessage} {a : Acquire}

/-- A beat of a grant is on the wires, and its source waits for it. -/
theorem Inv.beats_of_wire (h : Inv cfg st) (hw : st.dWire = some msg) (hg : msg.isGrant = true) :
    1 + st.adapter.grantBeats msg.source ≤ st.client.beatsLeft msg.source := by
  have hle := h.beats msg.source
  rw [st.wireBeats_of_grant hw hg] at hle
  exact hle

section Last

variable (hg : msg.isGrant = true) (ha : st.client.acquires msg.source = some a) (hlast : a.beats = 1)

include hg ha hlast

/-- The last beat ends the Acquire of its source. -/
theorem acquires_last {src blk cap : Nat} : (st.client.receive msg).Acquires src blk cap ↔
    src ≠ msg.source ∧ st.client.Acquires src blk cap := by
  rw [Client.receive_spec hg ha, if_pos hlast]
  unfold Client.Acquires
  by_cases hsrc : src = msg.source
  · subst hsrc
    simp
  · simp [hsrc]

theorem held_last : (st.client.receive msg).held =
    Function.update st.client.held a.block (if msg.param = toT then .T else .B) := by
  rw [Client.receive_spec hg ha, if_pos hlast]

theorem burst_last : (st.client.receive msg).burst = st.client.burst := by
  rw [Client.receive_spec hg ha, if_pos hlast]

theorem returns_last {blk : Nat} :
    (st.client.receive msg).Returns cfg blk ↔ st.client.Returns cfg blk := by
  unfold Client.Returns
  rw [burst_last hg ha hlast]

/-- A block that may be written afterwards is the granted one, or was before. -/
theorem held_last_T {blk : Nat} (hT : (st.client.receive msg).held blk = .T) :
    blk = a.block ∧ msg.param = toT ∨ blk ≠ a.block ∧ st.client.held blk = .T := by
  rw [held_last hg ha hlast] at hT
  by_cases hblk : blk = a.block
  · subst hblk
    rw [Function.update_self] at hT
    refine .inl ⟨rfl, ?_⟩
    by_contra hne
    rw [if_neg hne] at hT
    cases hT
  · rw [Function.update_of_ne hblk] at hT
    exact .inr ⟨hblk, hT⟩

omit hg hlast in
/-- The granted block was nobody's. -/
theorem Inv.not_held (h : Inv cfg st) :
    ¬ (st.client.held a.block = .T ∨ st.client.Returns cfg a.block) :=
  fun hh => h.idle a.block hh msg.source a.cap ⟨a, ha, rfl, rfl⟩

/-- A block that is not the adapter's is the client's, or on its way. -/
theorem Inv.trunk_last (h : Inv cfg st) (hw : st.dWire = some msg) {blk : Nat}
    (hT : st.adapter.perm blk = .trunk) : (st.client.receive msg).held blk = .T ∨
      (st.client.receive msg).Returns cfg blk ∨
      ∃ src, (st.client.receive msg).Acquires src blk toT := by
  rw [held_last hg ha hlast, returns_last hg ha hlast]
  by_cases hblk : blk = a.block
  · subst hblk
    rcases h.trunk a.block hT with hh | hh | ⟨src, hh⟩
    · exact absurd (.inl hh) (h.not_held ha)
    · exact absurd (.inr hh) (h.not_held ha)
    · -- the Acquire that is left is the one that is answered
      have hsrc : msg.source = src := h.unique _ _ _ _ _ ⟨a, ha, rfl, rfl⟩ hh
      subst hsrc
      obtain ⟨a', ha', _, hcap⟩ := hh
      rw [ha] at ha'
      cases ha'
      have hparam := (h.wire msg hw hg a.block a.cap ⟨a, ha, rfl, rfl⟩).1
      rw [Function.update_self, if_pos (hparam.trans hcap)]
      exact .inl rfl
  · rw [Function.update_of_ne hblk]
    refine (h.trunk blk hT).imp id (.imp id fun hh => ?_)
    obtain ⟨src, hh⟩ := hh
    refine ⟨src, (acquires_last hg ha hlast).mpr ⟨fun e => ?_, hh⟩⟩
    obtain ⟨a', ha', hblk', _⟩ := hh
    rw [e, ha] at ha'
    cases ha'
    exact hblk hblk'.symm

/-- **The last beat of a grant**: the client has the block, and no Acquire of it is left. -/
theorem Inv.dFire_last (h : Inv cfg st) (hw : st.dWire = some msg) :
    Inv cfg { st with client := st.client.receive msg, dWire := none } := by
  have hsub : ∀ {src blk cap}, (st.client.receive msg).Acquires src blk cap →
      src ≠ msg.source ∧ st.client.Acquires src blk cap := (acquires_last hg ha hlast).mp
  refine ⟨fun blk hT => ?_, fun blk hT => h.trunk_last hg ha hlast hw hT,
    fun blk hblk src cap hacq => ?_, fun blk hr hT => ?_,
    fun src src' blk cap cap' hacq hacq' => ?_, fun src => ?_,
    h.grants.congr fun src _ blk cap hacq => (hsub hacq).2, fun m hm => (nomatch hm), ?_⟩
  · rcases held_last_T hg ha hlast hT with ⟨rfl, hparam⟩ | ⟨_, hT⟩
    · exact (h.wire msg hw hg a.block a.cap ⟨a, ha, rfl, rfl⟩).2 hparam
    · exact h.owned blk hT
  · obtain ⟨hne, hacq'⟩ := hsub hacq
    have hother : blk ≠ a.block := by
      intro e
      subst e
      exact hne (h.unique _ _ _ _ _ hacq' ⟨a, ha, rfl, rfl⟩)
    refine h.idle blk (hblk.imp (fun hT => ?_) (returns_last hg ha hlast).mp) src cap hacq'
    exact ((held_last_T hg ha hlast hT).resolve_left fun hb => hother hb.1).2
  · have hr := (returns_last hg ha hlast).mp hr
    rcases held_last_T hg ha hlast hT with ⟨rfl, _⟩ | ⟨_, hT⟩
    · exact h.not_held ha (.inr hr)
    · exact h.given blk hr hT
  · exact h.unique src src' blk cap cap' (hsub hacq).2 (hsub hacq').2
  · show 0 + st.adapter.grantBeats src ≤ (st.client.receive msg).beatsLeft src
    have hle := h.beats src
    unfold Client.beatsLeft at hle ⊢
    rw [Client.receive_spec hg ha, if_pos hlast]
    by_cases hsrc : src = msg.source
    · subst hsrc
      have hle' := h.beats_of_wire hw hg
      unfold Client.beatsLeft at hle'
      rw [ha, Option.elim_some, hlast] at hle'
      omega
    · simp only [Function.update_of_ne hsrc]
      omega
  · show BurstOk (st.client.receive msg) st.adapter.cOngoings
    unfold BurstOk
    rw [burst_last hg ha hlast]
    exact h.burst

end Last

/-- A beat of a grant that is not the last one. -/
theorem Inv.dFire_more (h : Inv cfg st) (hw : st.dWire = some msg) (hg : msg.isGrant = true)
    (ha : st.client.acquires msg.source = some a) (hlast : a.beats ≠ 1) :
    Inv cfg { st with client := st.client.receive msg, dWire := none } := by
  have hspec := Client.receive_spec hg ha
  rw [if_neg hlast] at hspec
  have hsame : (st.client.receive msg).Acquires = st.client.Acquires := by
    funext src blk cap
    apply propext
    unfold Client.Acquires
    rw [hspec]
    by_cases hsrc : src = msg.source
    · subst hsrc
      simp only [Function.update_self, ha, Option.some.injEq, exists_eq_left']
    · simp only [Function.update_of_ne hsrc]
  have hheld : (st.client.receive msg).held = st.client.held := by
    rw [hspec]
  have hret : (st.client.receive msg).Returns cfg = st.client.Returns cfg := by
    rw [hspec]
    rfl
  refine ⟨?_, ?_, ?_, ?_, ?_, fun src => ?_, ?_, fun m hm => (nomatch hm), ?_⟩
  · show ∀ blk, (st.client.receive msg).held blk = .T → _
    rw [hheld]
    exact h.owned
  · show ∀ blk, _ → (st.client.receive msg).held blk = .T ∨
      (st.client.receive msg).Returns cfg blk ∨ ∃ src, (st.client.receive msg).Acquires src blk toT
    rw [hheld, hret, hsame]
    exact h.trunk
  · show ∀ blk, (st.client.receive msg).held blk = .T ∨
      (st.client.receive msg).Returns cfg blk → ∀ src cap, ¬ (st.client.receive msg).Acquires _ _ _
    rw [hheld, hret, hsame]
    exact h.idle
  · show ∀ blk, (st.client.receive msg).Returns cfg blk → (st.client.receive msg).held blk ≠ .T
    rw [hheld, hret]
    exact h.given
  · show ∀ src src' blk cap cap', (st.client.receive msg).Acquires src blk cap →
      (st.client.receive msg).Acquires src' blk cap' → src = src'
    rw [hsame]
    exact h.unique
  · show 0 + st.adapter.grantBeats src ≤ (st.client.receive msg).beatsLeft src
    have hle := h.beats src
    unfold Client.beatsLeft at hle ⊢
    rw [hspec]
    by_cases hsrc : src = msg.source
    · subst hsrc
      have hle' := h.beats_of_wire hw hg
      unfold Client.beatsLeft at hle'
      rw [ha, Option.elim_some] at hle'
      simp only [Function.update_self, Option.elim_some]
      omega
    · simp only [Function.update_of_ne hsrc]
      omega
  · show GrantsOk (st.client.receive msg).Acquires st.adapter
    rw [hsame]
    exact h.grants
  · show BurstOk (st.client.receive msg) st.adapter.cOngoings
    rw [hspec]
    exact h.burst

/-- **The client takes a message of channel D.** -/
theorem Inv.dFire (h : Inv cfg st) (hw : st.dWire = some msg) :
    Inv cfg { st with client := st.client.receive msg, dWire := none } := by
  by_cases hg : msg.isGrant = true
  · cases ha : st.client.acquires msg.source with
    | none =>
        have hle := h.beats_of_wire hw hg
        unfold Client.beatsLeft at hle
        rw [ha, Option.elim_none] at hle
        omega
    | some a =>
        by_cases hlast : a.beats = 1
        · exact h.dFire_last hg ha hlast hw
        · exact h.dFire_more hw hg ha hlast
  · have hsame : st.client.receive msg = st.client := by
      unfold Client.receive
      rw [if_neg hg]
    rw [hsame]
    refine ⟨h.owned, h.trunk, h.idle, h.given, h.unique, fun src => ?_, h.grants,
      fun m hm => (nomatch hm), h.burst⟩
    have hle := h.beats src
    show 0 + st.adapter.grantBeats src ≤ st.client.beatsLeft src
    omega

end Take

/-! ## 5. Every reachable state -/

/-- At first every block is the adapter's. -/
theorem Adapter.perm_start (cfg : Config) (memory ongoingTlc : Dict Nat Nat) (probe probeEn : Bool)
    (probeAddr : Nat) (σ : SetOrder) (random : Nat → Nat) (blk : Nat) :
    (Adapter.start cfg memory ongoingTlc probe probeEn probeAddr σ random).perm blk = .tip := by
  unfold Adapter.perm Adapter.start Dict.getD
  simp only [Dict.get?_ofList]
  cases hl : List.lookup blk _ with
  | none => rfl
  | some p =>
      have hm := Dict.mem_of_lookup hl
      rw [List.mem_reverse, List.mem_map] at hm
      obtain ⟨a, _, ha⟩ := hm
      cases ha
      rfl

theorem started_inv (h : Started cfg st) : Inv cfg st := by
  obtain ⟨memory, ongoingTlc, probe, probeEn, probeAddr, σ, random, rfl⟩ := h
  have htip := Adapter.perm_start cfg memory ongoingTlc probe probeEn probeAddr σ random
  have hno : ∀ src blk cap, ¬ Client.init.Acquires src blk cap := by
    intro src blk cap ha
    obtain ⟨a, ha, _⟩ := ha
    cases ha
  have hret : ∀ blk, ¬ Client.init.Returns cfg blk := by
    intro blk hr
    obtain ⟨b, n, hb, _⟩ := hr
    cases hb
  refine ⟨fun blk hT => (by cases hT), fun blk hT => ?_, fun blk _ => fun src cap => hno src blk cap,
    fun blk hr => absurd hr (hret blk), fun src _ blk cap _ ha => absurd ha (hno src blk cap),
    fun src => Nat.le_refl 0, ⟨trivial, fun c hc => ?_⟩, fun msg hm => (by cases hm), rfl⟩
  · rw [htip] at hT
    cases hT
  · cases hc

/-- **Every step keeps the invariant.** -/
theorem step_inv {st' : System} (h : Inv cfg st) (hs : Step cfg st st') : Inv cfg st' := by
  cases hs with
  | uncached b s' _ hb hs =>
      exact h.shuffles ((Adapter.touch_shuffles _).trans
        (Adapter.aOpcode_shuffles hb (Adapter.aPortMonitor_ok hs)))
  | acquire b s' _ hb hs => exact h.acquire hb hs
  | respond b s' _ hb hs => exact h.respond hb hs
  | grantAck sink s' _ hs => exact h.shuffles (Adapter.ePortMonitor_shuffles hs)
  | dPop msg s' _ _ hs => exact h.dPop hs
  | dFire msg hw => exact h.dFire hw
  | bPop _ _ =>
      have h' := h.shuffles (Adapter.bPop_shuffles (s := st.adapter))
      exact ⟨h'.owned, h'.trunk, h'.idle, h'.given, h'.unique, h'.beats, h'.grants, h'.wire, h'.burst⟩
  | bFire msg _ =>
      exact ⟨h.owned, h.trunk, h.idle, h.given, h.unique, h.beats, h.grants, h.wire, h.burst⟩
  | probeBlock addr => exact h.shuffles (Adapter.shuffles_of_keeps ⟨rfl, rfl, rfl⟩ (.refl _))
  | hostInterface s' _ hs => exact h.shuffles (Adapter.hostInterface_shuffles hs)
  | stop => exact h.shuffles (Adapter.shuffles_of_keeps ⟨rfl, rfl, rfl⟩ (.refl _))
  | dataRetriever s' hs => exact h.shuffles (Adapter.dataRetriever_shuffles hs)

theorem reachable_inv (h : Reachable cfg st) : Inv cfg st :=
  h.inv (fun _ => started_inv) fun _ _ => step_inv

/-- **Ownership is tracked**: in every reachable state, whatever the order of messages and pops, a
    block that the client may write has permission TRUNK. -/
theorem owned_trunk (h : Reachable cfg st) {blk : Nat} (hT : st.client.held blk = .T) :
    st.adapter.blockPerm.get? blk = some .trunk := by
  have hperm := (reachable_inv h).owned blk hT
  unfold Adapter.perm Dict.getD at hperm
  cases hget : st.adapter.blockPerm.get? blk with
  | none =>
      rw [hget] at hperm
      cases hperm
  | some p =>
      rw [hget] at hperm
      rw [← hperm]
      rfl

/-! ### A run -/

namespace OwnershipDemo

/-- Blocks and beats of 64 bytes. -/
def config : Config := { protocol := .tlC, lgDatalen := 6, bDatalen := 8 }

def start : System :=
  ⟨.start config .empty .empty false true 0 .insertion fun _ => 0, .init, none, none⟩

/-- The client asks for block 64 to write it. -/
def beat : ABeat :=
  { opcode := .acquireBlock, param := NtoT, size := 6, source := 1, address := 64, mask := 255
    data := 0 }

def acquired : System :=
  { start with
    adapter := valueD (start.adapter.aPortMonitor config beat) start.adapter
    client := start.client.acquire config beat }

def driven : System :=
  let r := valueD acquired.adapter.dPop (none, acquired.adapter)
  { acquired with adapter := r.2, dWire := r.1 }

def msg : DMessage := { opcode := .grantData, param := toT, size := 6, source := 1 }

def granted : System := { driven with client := driven.client.receive msg, dWire := none }

theorem granted_reachable : Reachable config granted := by
  have h₀ : Reachable config start := .start _ ⟨_, _, _, _, _, _, _, rfl⟩
  have hmay : start.client.MayAcquire config beat :=
    ⟨.inl rfl, rfl, rfl, fun _ _ ha => (nomatch ha), fun _ _ hb => (nomatch hb)⟩
  have h₁ : Reachable config acquired :=
    .step _ _ h₀ (.acquire _ _ _ rfl hmay (eq_ok_valueD _ (by decide +kernel)))
  have h₂ : Reachable config driven :=
    .step _ _ h₁ (.dPop _ _ _ (by decide +kernel) rfl (eq_ok_valueD _ (by decide +kernel)))
  exact .step _ _ h₂ (.dFire _ _ (by decide +kernel))

end OwnershipDemo

theorem owned_trunk_granted : OwnershipDemo.granted.client.held 64 = .T ∧
    OwnershipDemo.granted.adapter.blockPerm.get? 64 = some .trunk := by
  have hT : OwnershipDemo.granted.client.held 64 = .T := by decide +kernel
  exact ⟨hT, owned_trunk OwnershipDemo.granted_reachable hT⟩

end Difuzz.TileLink
