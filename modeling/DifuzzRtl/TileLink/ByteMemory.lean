/-
  File:      DifuzzRtl/TileLink/ByteMemory.lean
  Subject:   Uncached traffic: the adapter is a memory of bytes.

  The adapter keeps words, one for each beat address, and answers in beats. A memory of bytes that
  knows nothing of words, tables or counters is the reference.

  * `Transaction` -- a complete Get or Put, as its beats on channel A.
  * `Transaction.write`, `Transaction.respond`, `reference` -- what the memory of bytes does.
  * `bytes` -- the bytes that a memory map holds.
  * `bitMask_byteMask` -- the mask that is built from text selects whole bytes.
  * `aPortMonitor_get`, `aPortMonitor_put` -- one beat; `putBeats`, `putRun` -- a burst, by
    induction over its beats.
  * `uncached_refines` -- any sequence of transactions.
-/
import DifuzzRtl.TileLink.Adapter

namespace Difuzz.TileLink

/-! ## 1. The reference -/

/-- A memory of bytes. -/
abbrev ByteMemory := Nat → Nat

/-- A complete uncached transaction: a Get is one beat; the beats of a Put agree but for mask and
    data, and there are as many as the size needs. -/
inductive Transaction (cfg : Config) where
  | get (b : ABeat) (opcode : b.opcode = .get) (aligned : b.address % 2 ^ b.size = 0)
  | put (b : ABeat) (rest : List ABeat)
      (opcode : b.opcode = .putFullData ∨ b.opcode = .putPartialData)
      (aligned : b.address % 2 ^ b.size = 0)
      (length : (b :: rest).length = max (2 ^ b.size / cfg.datalen) 1)
      (same : ∀ b' ∈ rest, b'.opcode = b.opcode ∧ b'.size = b.size ∧ b'.source = b.source ∧
        b'.address = b.address)

/-- A message of channel D, its data as bytes. -/
structure DView where
  opcode : DOpcode
  param : Nat
  size : Nat
  source : Nat
  sink : Nat
  corrupt : Nat
  denied : Nat
  bytes : List Nat
  deriving DecidableEq

/-- The first `n` bytes of a word. -/
def bytesOf (n word : Nat) : List Nat := (List.range n).map (byteAt word)

def DMessage.view (n : Nat) (msg : DMessage) : DView :=
  ⟨msg.opcode, msg.param, msg.size, msg.source, msg.sink, msg.corrupt, msg.denied,
   bytesOf n msg.data⟩

/-- A beat at address `a` writes the lanes that its mask selects. -/
def writeBeat (n : Nat) (M : ByteMemory) (a : Nat) (b : ABeat) : ByteMemory := fun x =>
  if a ≤ x ∧ x < a + n ∧ b.mask.testBit (x - a) then byteAt b.data (x - a) else M x

/-- The beats of a burst follow each other. -/
def writeBeats (n : Nat) (M : ByteMemory) (a : Nat) : List ABeat → ByteMemory
  | [] => M
  | b :: bs => writeBeats n (writeBeat n M a b) (a + n) bs

theorem writeBeats_concat (n : Nat) (M : ByteMemory) (a : Nat) (bs : List ABeat) (b : ABeat) :
    writeBeats n M a (bs ++ [b]) = writeBeat n (writeBeats n M a bs) (a + bs.length * n) b := by
  induction bs generalizing M a with
  | nil => simp [writeBeats]
  | cons c bs ih =>
      rw [List.cons_append, writeBeats, ih, List.length_cons, Nat.succ_mul, Nat.add_assoc,
        Nat.add_comm n]
      rfl

namespace Transaction

variable {cfg : Config}

def beats : Transaction cfg → List ABeat
  | .get b _ _ => [b]
  | .put b rest _ _ _ _ => b :: rest

/-- The first beat. -/
def head : Transaction cfg → ABeat
  | .get b _ _ => b
  | .put b _ _ _ _ _ => b

/-- The address of the first beat. -/
def base (t : Transaction cfg) : Nat := t.head.address / cfg.datalen * cfg.datalen

/-- What the transaction writes. -/
def write (t : Transaction cfg) (M : ByteMemory) : ByteMemory :=
  match t with
  | .get _ _ _ => M
  | .put b rest _ _ _ _ => writeBeats cfg.datalen M t.base (b :: rest)

/-- What the transaction answers. -/
def respond (t : Transaction cfg) (M : ByteMemory) : List DView :=
  match t with
  | .get b _ _ => (List.range (max (2 ^ b.size / cfg.datalen) 1)).map fun i =>
      ⟨.accessAckData, 0, b.size, b.source, 0, 0, 0,
       (List.range cfg.datalen).map fun j => M (t.base + i * cfg.datalen + j)⟩
  | .put b _ _ _ _ _ =>
      [⟨.accessAck, 0, b.size, b.source, 0, 0, 0, List.replicate cfg.datalen 0⟩]

end Transaction

/-- **The reference**: the memory after a sequence of transactions, and all answers in order. -/
def reference {cfg : Config} : ByteMemory → List (Transaction cfg) → ByteMemory × List DView
  | M, [] => (M, [])
  | M, t :: ts => ((reference (t.write M) ts).1, t.respond M ++ (reference (t.write M) ts).2)

/-! ## 2. The bytes of a memory map -/

/-- The bytes that a map of words holds; bytes without a word are 0. -/
def bytes (cfg : Config) (memory : Dict Nat Nat) : ByteMemory := fun x =>
  byteAt (memory.getD (x / cfg.datalen * cfg.datalen) 0) (x % cfg.datalen)

theorem Config.datalen_pos (cfg : Config) : 0 < cfg.datalen := Nat.two_pow_pos _

theorem Config.addrAligned_eq (cfg : Config) (addr : Nat) :
    cfg.addrAligned addr = addr / cfg.datalen * cfg.datalen := ldiff_low addr cfg.lgDatalen

/-- A byte of the word at a beat address. -/
theorem bytes_beat {cfg : Config} {memory : Dict Nat Nat} {a j : Nat} (ha : cfg.datalen ∣ a)
    (hj : j < cfg.datalen) : bytes cfg memory (a + j) = byteAt (memory.getD a 0) j := by
  obtain ⟨k, rfl⟩ := ha
  have hpos := cfg.datalen_pos
  unfold bytes
  rw [Nat.mul_add_div hpos, Nat.div_eq_of_lt hj, Nat.add_zero, Nat.mul_comm k,
    Nat.mul_add_mod, Nat.mod_eq_of_lt hj]

/-- A word written is a beat written, when the word is the old one merged with the data. -/
theorem bytes_set {cfg : Config} {memory : Dict Nat Nat} {a : Nat} (ha : cfg.datalen ∣ a) {b : ABeat}
    {m : Nat} (hm : ByteMask b.mask m) :
    bytes cfg (memory.set a (merge (memory.getD a 0) b.data m)) =
      writeBeat cfg.datalen (bytes cfg memory) a b := by
  funext x
  have hpos := cfg.datalen_pos
  have hx := Nat.div_add_mod' x cfg.datalen
  have hlt := Nat.mod_lt x hpos
  unfold writeBeat
  by_cases hw : x / cfg.datalen * cfg.datalen = a
  · -- the byte lies in the word
    have hsub : x - a = x % cfg.datalen := by omega
    have hge : a ≤ x := by omega
    have hle : x < a + cfg.datalen := by omega
    unfold bytes
    rw [hw, Dict.getD_set, if_pos rfl, byteAt_merge hm, hsub]
    simp only [hge, hle, true_and]
  · have hout : ¬ (a ≤ x ∧ x < a + cfg.datalen ∧ b.mask.testBit (x - a) = true) := by
      intro h
      obtain ⟨k, rfl⟩ := ha
      refine hw ?_
      rw [Nat.mul_comm] at h ⊢
      have hk : x / cfg.datalen = k := by
        refine Nat.div_eq_of_lt_le h.1 ?_
        rw [Nat.succ_mul]
        exact h.2.1
      rw [hk]
    rw [if_neg hout]
    unfold bytes
    rw [Dict.getD_set, if_neg hw]

/-! ## 3. The mask -/

/-- A binary digit, read as two hexadecimal ones. -/
theorem foldl_hex02 {d : Nat} (hd : d < 2) (n : Nat) :
    (hex02 (0xFF * (d.digitChar.toNat - '0'.toNat))).foldl (fun n c => 16 * n + hexDigit c) n =
      2 ^ 8 * n + 255 * d := by
  rcases (by omega : d = 0 ∨ d = 1) with rfl | rfl
  · show 16 * (16 * n + 0) + 0 = 2 ^ 8 * n + 255 * 0
    omega
  · show 16 * (16 * n + 15) + 15 = 2 ^ 8 * n + 255 * 1
    omega

theorem bitMask_of_lt {mask : Nat} (h : mask < 2) : bitMask mask = 255 * mask := by
  unfold bitMask ofHex
  rw [Nat.toDigits_of_lt_base h, List.flatMap_singleton, foldl_hex02 h, Nat.mul_zero, Nat.zero_add]

/-- The last digit of the mask gives the last byte. -/
theorem bitMask_of_le {mask : Nat} (h : 2 ≤ mask) :
    bitMask mask = 2 ^ 8 * bitMask (mask / 2) + 255 * (mask % 2) := by
  unfold bitMask ofHex
  rw [Nat.toDigits_of_base_le (by decide) h, List.flatMap_append, List.foldl_append,
    List.flatMap_singleton, foldl_hex02 (Nat.mod_lt _ (by decide))]

/-- A byte of ones, or of zeros. -/
theorem testBit_ones {d i : Nat} (hd : d < 2) (hi : i < 8) : (255 * d).testBit i = d.testBit 0 := by
  rcases (by omega : d = 0 ∨ d = 1) with rfl | rfl
  · simp
  · show (2 ^ 8 - 1).testBit i = true
    rw [Nat.testBit_two_pow_sub_one]
    exact decide_eq_true hi

/-- **The mask that is built from text**: a byte of ones for each bit. -/
theorem bitMask_byteMask (mask : Nat) : ByteMask mask (bitMask mask) := by
  induction mask using Nat.strongRecOn with
  | _ mask ih =>
      intro i
      by_cases h : mask < 2
      · rw [bitMask_of_lt h]
        by_cases hi : i < 8
        · rw [testBit_ones h hi, Nat.div_eq_of_lt hi]
        · have hpow : 2 ^ 8 ≤ 2 ^ i := Nat.pow_le_pow_right (by decide) (by omega)
          have hdiv : 2 ^ 1 ≤ 2 ^ (i / 8) := Nat.pow_le_pow_right (by decide) (by omega)
          rw [Nat.testBit_lt_two_pow (by omega), Nat.testBit_lt_two_pow (by omega)]
      · rw [bitMask_of_le (by omega)]
        have hbyte : 255 * (mask % 2) < 2 ^ 8 := by omega
        rw [Nat.testBit_two_pow_mul_add _ hbyte]
        by_cases hi : i < 8
        · rw [if_pos hi, testBit_ones (Nat.mod_lt _ (by decide)) hi, Nat.div_eq_of_lt hi]
          simp
        · have hdiv : i / 8 = (i - 8) / 8 + 1 := by omega
          rw [if_neg hi, ih _ (by omega), hdiv, Nat.testBit_add_one]

/-! ## 4. One beat -/

/-- Every word of the memory fits the bus. -/
def Fits (cfg : Config) (memory : Dict Nat Nat) : Prop :=
  ∀ a, memory.getD a 0 < 2 ^ (8 * cfg.datalen)

/-- **Traffic served**: from `s` to `s'` the messages `msgs` were pushed, the memory holds the
    bytes `M`, permissions stayed. When the words and the data (`W`) fit the bus, so do the
    messages. -/
structure Serves (cfg : Config) (s s' : Adapter) (M : ByteMemory) (msgs : List DMessage) (W : Prop) :
    Prop where
  queue : s'.dQueue = s.dQueue ++ msgs.map fun msg => (some msg, none)
  bytes : TileLink.bytes cfg s'.memory = M
  perm : ∀ a, s'.perm a = s.perm a
  fits : W → Fits cfg s.memory →
    Fits cfg s'.memory ∧ ∀ msg ∈ msgs, msg.data < 2 ^ (8 * cfg.datalen)

theorem Serves.trans {cfg : Config} {s s' s'' : Adapter} {M M' : ByteMemory}
    {msgs msgs' : List DMessage} {W W' : Prop} (h : Serves cfg s s' M msgs W)
    (h' : Serves cfg s' s'' M' msgs' W') : Serves cfg s s'' M' (msgs ++ msgs') (W ∧ W') := by
  refine ⟨?_, h'.bytes, fun a => (h'.perm a).trans (h.perm a), fun hW hf => ?_⟩
  · rw [h'.queue, h.queue, List.append_assoc, List.map_append]
  · obtain ⟨hf₁, hm₁⟩ := h.fits hW.1 hf
    obtain ⟨hf₂, hm₂⟩ := h'.fits hW.2 hf₁
    refine ⟨hf₂, fun msg hmsg => ?_⟩
    rcases List.mem_append.mp hmsg with hmsg | hmsg
    · exact hm₁ msg hmsg
    · exact hm₂ msg hmsg

section Beat

variable {cfg : Config} {s : Adapter} {b : ABeat}

/-- A beat that passes the checks. -/
theorem aPortMonitor_checked
    (ha : aAssertions b.opcode b.param b.size b.address b.mask cfg.debug = .ok ())
    (ho : s.aOngoings.entries = [] ∨ b.source ∈ s.aOngoings.keys) :
    s.aPortMonitor cfg b = (s.touch (cfg.blockAddr b.address)).aOpcode cfg b := by
  unfold Adapter.aPortMonitor check
  rw [ha, if_pos ho]
  rfl

/-- **A Get** is answered with the words of its beats. -/
theorem aPortMonitor_get (hb : b.opcode = .get)
    (ha : aAssertions b.opcode b.param b.size b.address b.mask cfg.debug = .ok ())
    (ho : s.aOngoings.entries = []) (hp : s.perm (cfg.blockAddr b.address) = .tip) :
    ∃ s' msgs, s.aPortMonitor cfg b = .ok s' ∧ s'.aOngoings = s.aOngoings ∧
      Serves cfg s s' (bytes cfg s.memory) msgs True ∧
      msgs.map (DMessage.view cfg.datalen) = (List.range (cfg.burstLen b.size)).map fun i =>
        ⟨.accessAckData, 0, b.size, b.source, 0, 0, 0, (List.range cfg.datalen).map fun j =>
          bytes cfg s.memory (b.address / cfg.datalen * cfg.datalen + i * cfg.datalen + j)⟩ := by
  have hstep : s.aPortMonitor cfg b = .ok ((s.touch (cfg.blockAddr b.address)).accessAckDataCb cfg
      (cfg.burstLen b.size) (cfg.addrAligned b.address) b.size b.source) := by
    rw [aPortMonitor_checked ha (.inl ho)]
    unfold Adapter.aOpcode Adapter.getData
    simp only [hb, Adapter.perm_touch, hp, ne_eq, not_true_eq_false, if_false]
  obtain ⟨hqueue, hmem⟩ := (s.touch (cfg.blockAddr b.address)).accessAckDataCb_spec cfg
    (cfg.burstLen b.size) (cfg.addrAligned b.address) b.size b.source
  refine ⟨_, _, hstep, rfl, ⟨hqueue, ?_, s.perm_touch _, fun _ hf => ⟨?_, ?_⟩⟩, ?_⟩
  · funext x
    unfold bytes
    rw [hmem]
    rfl
  · intro a
    rw [hmem]
    exact hf a
  · intro msg hmsg
    obtain ⟨i, _, rfl⟩ := List.mem_map.mp hmsg
    exact hf _
  · rw [List.map_map]
    refine List.map_congr_left fun i _ => ?_
    have hdvd : cfg.datalen ∣ b.address / cfg.datalen * cfg.datalen + i * cfg.datalen :=
      ⟨b.address / cfg.datalen + i, by ring⟩
    have hbytes : (List.range cfg.datalen).map (fun j =>
        bytes cfg s.memory (b.address / cfg.datalen * cfg.datalen + i * cfg.datalen + j)) =
        bytesOf cfg.datalen (s.memory.getD (cfg.addrAligned b.address + i * cfg.datalen) 0) := by
      refine List.map_congr_left fun j hj => ?_
      rw [bytes_beat hdvd (List.mem_range.mp hj), cfg.addrAligned_eq]
    rw [hbytes]
    rfl

/-- **A beat of a Put** writes the lanes of its mask. With the last one the AccessAck is pushed and
    the count is dropped, with any other the count goes on. -/
theorem aPortMonitor_put (hb : b.opcode = .putFullData ∨ b.opcode = .putPartialData)
    (ha : aAssertions b.opcode b.param b.size b.address b.mask cfg.debug = .ok ()) {count : Nat}
    (ho : s.aOngoings = counts b.source count) (hp : s.perm (cfg.blockAddr b.address) = .tip) :
    ∃ s', s.aPortMonitor cfg b = .ok s' ∧
      s'.aOngoings = (if count + 1 = cfg.burstLen b.size then .empty else counts b.source (count + 1)) ∧
      Serves cfg s s' (writeBeat cfg.datalen (bytes cfg s.memory)
        (b.address / cfg.datalen * cfg.datalen + count * cfg.datalen) b)
        (if count + 1 = cfg.burstLen b.size then
          [{ opcode := .accessAck, size := b.size, source := b.source }] else [])
        (b.data < 2 ^ (8 * cfg.datalen)) := by
  have hopcode : (s.touch (cfg.blockAddr b.address)).aOpcode cfg b =
      (s.touch (cfg.blockAddr b.address)).putData cfg b := by
    unfold Adapter.aOpcode
    rcases hb with hb | hb <;> simp only [hb]
  have hfree : s.aOngoings.entries = [] ∨ b.source ∈ s.aOngoings.keys := by
    rw [ho]
    exact counts_free _ _
  have hcount : (s.touch (cfg.blockAddr b.address)).aOngoings.getD b.source 0 = count := by
    show s.aOngoings.getD b.source 0 = count
    rw [ho, counts_getD]
  have haddr := cfg.addrAligned_eq b.address
  have hdvd : cfg.datalen ∣ b.address / cfg.datalen * cfg.datalen + count * cfg.datalen :=
    ⟨b.address / cfg.datalen + count, by ring⟩
  have hbytes := @bytes_set cfg s.memory _ hdvd _ _ (bitMask_byteMask b.mask)
  -- the new memory fits the bus
  have hfits : b.data < 2 ^ (8 * cfg.datalen) → Fits cfg s.memory → ∀ a,
      Fits cfg (s.memory.set a (merge (s.memory.getD a 0) b.data (bitMask b.mask))) := by
    intro hd hf a x
    rw [Dict.getD_set]
    split
    · exact merge_lt (hf a) hd
    · exact hf x
  rw [aPortMonitor_checked ha hfree, hopcode]
  unfold Adapter.putData
  simp only [hcount, Adapter.perm_touch, hp, ne_eq, not_true_eq_false, if_false, haddr]
  by_cases hlast : count + 1 = cfg.burstLen b.size
  · rw [if_pos hlast, if_pos hlast, if_pos hlast]
    refine ⟨_, rfl, ?_, ⟨rfl, hbytes, s.perm_touch _, fun hd hf => ⟨hfits hd hf _, fun msg hmsg => ?_⟩⟩⟩
    · show (if count = 0 then s.aOngoings else s.aOngoings.erase b.source) = .empty
      rw [ho]
      split
      · rename_i h
        rw [h]
        rfl
      · exact counts_erase _ _
    · rw [List.mem_singleton.mp hmsg]
      exact Nat.two_pow_pos _
  · rw [if_neg hlast, if_neg hlast, if_neg hlast]
    refine ⟨_, rfl, ?_, ⟨(List.append_nil _).symm, hbytes, s.perm_touch _, fun hd hf => ⟨hfits hd hf _, ?_⟩⟩⟩
    · show s.aOngoings.set b.source (count + 1) = _
      rw [ho, counts_set]
    · intro msg hmsg
      cases hmsg

end Beat

/-! ## 5. Transactions -/

/-- The beats of channel A one after the other. -/
def Adapter.aRun (cfg : Config) (s : Adapter) (bs : List ABeat) : Except Error Adapter :=
  bs.foldlM (fun s b => s.aPortMonitor cfg b) s

theorem Adapter.aRun_append {cfg : Config} {s s' : Adapter} {bs bs' : List ABeat}
    (h : s.aRun cfg bs = .ok s') : s.aRun cfg (bs ++ bs') = s'.aRun cfg bs' := by
  unfold aRun at h ⊢
  rw [List.foldlM_append, h]
  rfl

/-- The beat passes the checks of the debug mode. -/
def ABeat.Passes (cfg : Config) (b : ABeat) : Prop :=
  aAssertions b.opcode b.param b.size b.address b.mask cfg.debug = .ok ()

section Run

variable {cfg : Config}

/-- **The first beats of a Put**, from beat `count` on: nothing is answered before the last one. -/
theorem putBeats {size source address : Nat} {bs : List ABeat}
    (hb : ∀ b ∈ bs, (b.opcode = .putFullData ∨ b.opcode = .putPartialData) ∧ b.size = size ∧
      b.source = source ∧ b.address = address ∧ b.Passes cfg) {count : Nat}
    (hlen : count + bs.length < cfg.burstLen size) {s : Adapter}
    (ho : s.aOngoings = counts source count) (hp : s.perm (cfg.blockAddr address) = .tip) :
    ∃ s', s.aRun cfg bs = .ok s' ∧ s'.aOngoings = counts source (count + bs.length) ∧
      Serves cfg s s' (writeBeats cfg.datalen (bytes cfg s.memory)
        (address / cfg.datalen * cfg.datalen + count * cfg.datalen) bs)
        [] (∀ b ∈ bs, b.data < 2 ^ (8 * cfg.datalen)) := by
  induction bs generalizing s count with
  | nil =>
      refine ⟨s, rfl, ho, ⟨(List.append_nil _).symm, rfl, fun _ => rfl, fun _ hf => ⟨hf, ?_⟩⟩⟩
      exact fun msg hmsg => absurd hmsg List.not_mem_nil
  | cons b bs ih =>
      obtain ⟨hop, rfl, rfl, rfl, hpass⟩ := hb b List.mem_cons_self
      obtain ⟨s₁, hs₁, ho₁, hserve₁⟩ := aPortMonitor_put hop hpass ho hp
      have hrun : s.aRun cfg (b :: bs) = s₁.aRun cfg bs := by
        unfold Adapter.aRun
        rw [List.foldlM_cons, hs₁]
        rfl
      rw [List.length_cons] at hlen
      have hmore : ¬ count + 1 = cfg.burstLen b.size := by omega
      rw [if_neg hmore] at ho₁ hserve₁
      have hp₁ : s₁.perm (cfg.blockAddr b.address) = .tip := (hserve₁.perm _).trans hp
      obtain ⟨s₂, hs₂, ho₂, hserve₂⟩ := ih (fun x hx => hb x (List.mem_cons_of_mem _ hx))
        (by omega : count + 1 + bs.length < cfg.burstLen b.size) ho₁ hp₁
      have hserve := hserve₁.trans hserve₂
      have hcount : count + 1 + bs.length = count + (b :: bs).length := by
        rw [List.length_cons]
        omega
      rw [hrun]
      refine ⟨s₂, hs₂, hcount ▸ ho₂, ⟨hserve.queue, hserve.bytes.trans ?_, hserve.perm,
        fun hW hf => ?_⟩⟩
      · rw [hserve₁.bytes, Nat.succ_mul, ← Nat.add_assoc]
        rfl
      · exact hserve.fits ⟨hW b List.mem_cons_self, fun x hx => hW x (List.mem_cons_of_mem _ hx)⟩ hf

/-- **All beats of a Put**: the last one is answered. -/
theorem putRun {size source address : Nat} {bs : List ABeat} (hne : bs ≠ [])
    (hb : ∀ b ∈ bs, (b.opcode = .putFullData ∨ b.opcode = .putPartialData) ∧ b.size = size ∧
      b.source = source ∧ b.address = address ∧ b.Passes cfg)
    (hlen : bs.length = cfg.burstLen size) {s : Adapter} (ho : s.aOngoings = .empty)
    (hp : s.perm (cfg.blockAddr address) = .tip) :
    ∃ s', s.aRun cfg bs = .ok s' ∧ s'.aOngoings = .empty ∧
      Serves cfg s s' (writeBeats cfg.datalen (bytes cfg s.memory)
        (address / cfg.datalen * cfg.datalen) bs)
        [{ opcode := .accessAck, size, source }] (∀ b ∈ bs, b.data < 2 ^ (8 * cfg.datalen)) := by
  obtain ⟨init, b, rfl⟩ := List.eq_nil_or_concat bs |>.resolve_left hne
  rw [List.concat_eq_append] at hb hlen ⊢
  have hlast : init.length + 1 = cfg.burstLen size := by
    rw [← hlen, List.length_append]
    rfl
  obtain ⟨s₁, hs₁, ho₁, hserve₁⟩ := putBeats (fun x hx => hb x (List.mem_append_left _ hx))
    (by omega : 0 + init.length < cfg.burstLen size) ho hp
  rw [Nat.zero_mul, Nat.add_zero] at hserve₁
  rw [Nat.zero_add] at ho₁
  obtain ⟨hop, rfl, rfl, rfl, hpass⟩ := hb b (List.mem_append_right _ (List.mem_singleton_self b))
  obtain ⟨s₂, hs₂, ho₂, hserve₂⟩ := aPortMonitor_put hop hpass ho₁ ((hserve₁.perm _).trans hp)
  rw [if_pos hlast] at ho₂ hserve₂
  have hserve := hserve₁.trans hserve₂
  refine ⟨s₂, ?_, ho₂, ⟨hserve.queue, hserve.bytes.trans ?_, hserve.perm, fun hW hf => ?_⟩⟩
  · rw [Adapter.aRun_append hs₁]
    show ([b].foldlM (fun s b => s.aPortMonitor cfg b) s₁ : Except Error Adapter) = _
    rw [List.foldlM_cons, hs₂]
    rfl
  · rw [hserve₁.bytes, writeBeats_concat]
  · exact hserve.fits ⟨fun x hx => hW x (List.mem_append_left _ hx),
      hW b (List.mem_append_right _ (List.mem_singleton_self b))⟩ hf

/-- The beats of a Put, as the adapter reads them. -/
theorem put_beats {b : ABeat} {rest : List ABeat}
    (opcode : b.opcode = .putFullData ∨ b.opcode = .putPartialData)
    (same : ∀ b' ∈ rest, b'.opcode = b.opcode ∧ b'.size = b.size ∧ b'.source = b.source ∧
      b'.address = b.address) (hpass : ∀ b' ∈ b :: rest, b'.Passes cfg) :
    ∀ b' ∈ b :: rest, (b'.opcode = .putFullData ∨ b'.opcode = .putPartialData) ∧
      b'.size = b.size ∧ b'.source = b.source ∧ b'.address = b.address ∧ b'.Passes cfg := by
  intro b' hb'
  have hpass' := hpass b' hb'
  rcases List.mem_cons.mp hb' with rfl | hrest
  · exact ⟨opcode, rfl, rfl, rfl, hpass'⟩
  · obtain ⟨h₁, h₂, h₃, h₄⟩ := same b' hrest
    rw [h₁]
    exact ⟨opcode, h₂, h₃, h₄, hpass'⟩

/-- **The beats before the last one** are not answered. -/
theorem transactionBeats (t : Transaction cfg) (hpass : ∀ b ∈ t.beats, b.Passes cfg) {s : Adapter}
    (ho : s.aOngoings = .empty) (hp : s.perm (cfg.blockAddr t.head.address) = .tip) {j : Nat}
    (hj : j < t.beats.length) :
    ∃ s', s.aRun cfg (t.beats.take j) = .ok s' ∧ s'.dQueue = s.dQueue ∧
      bytes cfg s'.memory =
        writeBeats cfg.datalen (bytes cfg s.memory) t.base (t.beats.take j) := by
  cases t with
  | get b opcode aligned =>
      obtain rfl : j = 0 := Nat.lt_one_iff.mp hj
      exact ⟨s, rfl, rfl, rfl⟩
  | put b rest opcode aligned length same =>
      have hb := put_beats opcode same hpass
      have hlen : 0 + ((b :: rest).take j).length < cfg.burstLen b.size := by
        have hj : j < (b :: rest).length := hj
        rw [Nat.zero_add, List.length_take, Nat.min_eq_left (Nat.le_of_lt hj)]
        exact Nat.lt_of_lt_of_eq hj length
      obtain ⟨s', hs', _, hserve⟩ := putBeats (fun x hx => hb x (List.mem_of_mem_take hx)) hlen ho hp
      rw [Nat.zero_mul, Nat.add_zero] at hserve
      exact ⟨s', hs', hserve.queue.trans (List.append_nil _), hserve.bytes⟩

/-- **One transaction.** -/
theorem transactionRun (t : Transaction cfg) (hpass : ∀ b ∈ t.beats, b.Passes cfg) {s : Adapter}
    (ho : s.aOngoings = .empty) (hp : s.perm (cfg.blockAddr t.head.address) = .tip) :
    ∃ s' msgs, s.aRun cfg t.beats = .ok s' ∧ s'.aOngoings = .empty ∧
      Serves cfg s s' (t.write (bytes cfg s.memory)) msgs
        (∀ b ∈ t.beats, b.data < 2 ^ (8 * cfg.datalen)) ∧
      msgs.map (DMessage.view cfg.datalen) = t.respond (bytes cfg s.memory) := by
  cases t with
  | get b opcode aligned =>
      obtain ⟨s', msgs, hs', ho', hserve, hmsgs⟩ := aPortMonitor_get opcode
        (hpass b (List.mem_singleton_self b)) (congrArg Dict.entries ho) hp
      refine ⟨s', msgs, ?_, ho'.trans ho, ⟨hserve.queue, hserve.bytes, hserve.perm, fun _ =>
        hserve.fits trivial⟩, hmsgs⟩
      show ([b].foldlM (fun s b => s.aPortMonitor cfg b) s : Except Error Adapter) = _
      rw [List.foldlM_cons, hs']
      rfl
  | put b rest opcode aligned length same =>
      obtain ⟨s', hs', ho', hserve⟩ := putRun (List.cons_ne_nil _ _) (put_beats opcode same hpass)
        length ho hp
      refine ⟨s', _, hs', ho', hserve, ?_⟩
      have hzero : bytesOf cfg.datalen 0 = List.replicate cfg.datalen 0 := by
        unfold bytesOf
        rw [List.map_congr_left fun j _ => byteAt_zero j, List.map_const', List.length_range]
      show [(⟨.accessAck, 0, b.size, b.source, 0, 0, 0, bytesOf cfg.datalen 0⟩ : DView)] = _
      rw [hzero]
      rfl

/-- A sequence of transactions. -/
theorem transactionsRun {s : Adapter} (ho : s.aOngoings = .empty) (ts : List (Transaction cfg))
    (hpass : ∀ t ∈ ts, ∀ b ∈ t.beats, b.Passes cfg)
    (hp : ∀ t ∈ ts, s.perm (cfg.blockAddr t.head.address) = .tip) :
    ∃ s' msgs, s.aRun cfg (ts.flatMap (·.beats)) = .ok s' ∧ s'.aOngoings = .empty ∧
      Serves cfg s s' (reference (bytes cfg s.memory) ts).1 msgs
        (∀ t ∈ ts, ∀ b ∈ t.beats, b.data < 2 ^ (8 * cfg.datalen)) ∧
      msgs.map (DMessage.view cfg.datalen) = (reference (bytes cfg s.memory) ts).2 := by
  induction ts generalizing s with
  | nil =>
      refine ⟨s, [], rfl, ho, ⟨(List.append_nil _).symm, rfl, fun _ => rfl, fun _ hf => ⟨hf, ?_⟩⟩, rfl⟩
      intro msg hmsg
      cases hmsg
  | cons t ts ih =>
      obtain ⟨s₁, msgs₁, hs₁, ho₁, hserve₁, hmsgs₁⟩ := transactionRun t
        (hpass t List.mem_cons_self) ho (hp t List.mem_cons_self)
      have hp₁ : ∀ t' ∈ ts, s₁.perm (cfg.blockAddr t'.head.address) = .tip := fun t' ht' =>
        (hserve₁.perm _).trans (hp t' (List.mem_cons_of_mem _ ht'))
      obtain ⟨s₂, msgs₂, hs₂, ho₂, hserve₂, hmsgs₂⟩ := ih ho₁
        (fun t' ht' => hpass t' (List.mem_cons_of_mem _ ht')) hp₁
      rw [hserve₁.bytes] at hserve₂ hmsgs₂
      have hserve := hserve₁.trans hserve₂
      refine ⟨s₂, msgs₁ ++ msgs₂, ?_, ho₂, ⟨hserve.queue, hserve.bytes, hserve.perm,
        fun hW => hserve.fits ⟨hW t List.mem_cons_self, fun t' ht' =>
          hW t' (List.mem_cons_of_mem _ ht')⟩⟩, ?_⟩
      · rw [List.flatMap_cons, Adapter.aRun_append hs₁]
        exact hs₂
      · rw [List.map_append, hmsgs₁, hmsgs₂]
        rfl

/-- **Uncached traffic is served as by a memory of bytes.** After any number `n` of a sequence of
    complete transactions to blocks that the adapter owns, no burst is under way, the messages
    pushed on the D queue are those of the reference, in order, and the memory holds its bytes.
    The beats of the next transaction are answered after the last one only: before it the queue
    stays, and the bytes are those written so far. The blocks stay the adapter's, and when words
    and data fit the bus the messages do. -/
theorem uncached_refines {s : Adapter} (ho : s.aOngoings = .empty) (ts : List (Transaction cfg))
    (hpass : ∀ t ∈ ts, ∀ b ∈ t.beats, b.Passes cfg)
    (hp : ∀ t ∈ ts, s.perm (cfg.blockAddr t.head.address) = .tip) (n : Nat) :
    ∃ (s' : Adapter) (msgs : List DMessage),
      s.aRun cfg ((ts.take n).flatMap (·.beats)) = .ok s' ∧ s'.aOngoings = .empty ∧
      s'.dQueue = s.dQueue ++ msgs.map (fun msg => (some msg, none)) ∧
      msgs.map (DMessage.view cfg.datalen) = (reference (bytes cfg s.memory) (ts.take n)).2 ∧
      bytes cfg s'.memory = (reference (bytes cfg s.memory) (ts.take n)).1 ∧
      (∀ t, ts[n]? = some t → ∀ j < t.beats.length, ∃ s'' : Adapter,
        s'.aRun cfg (t.beats.take j) = .ok s'' ∧ s''.dQueue = s'.dQueue ∧
        bytes cfg s''.memory =
          writeBeats cfg.datalen (bytes cfg s'.memory) t.base (t.beats.take j)) ∧
      (∀ a, s'.perm a = s.perm a) ∧
      ((∀ t ∈ ts, ∀ b ∈ t.beats, b.data < 2 ^ (8 * cfg.datalen)) → Fits cfg s.memory →
        ∀ msg ∈ msgs, msg.data < 2 ^ (8 * cfg.datalen)) := by
  have hmem : ∀ t ∈ ts.take n, t ∈ ts := fun t ht => List.mem_of_mem_take ht
  obtain ⟨s', msgs, hs', ho', hserve, hmsgs⟩ := transactionsRun ho (ts.take n)
    (fun t ht => hpass t (hmem t ht)) fun t ht => hp t (hmem t ht)
  refine ⟨s', msgs, hs', ho', hserve.queue, hmsgs, hserve.bytes, fun t ht j hj => ?_, hserve.perm,
    fun hW hf => (hserve.fits (fun t ht => hW t (hmem t ht)) hf).2⟩
  have ht := List.mem_of_getElem? ht
  exact transactionBeats t (hpass t ht) ho' ((hserve.perm _).trans (hp t ht)) hj

end Run

namespace Demo

def config : Config where
  protocol := .tlC
  lgDatalen := 3
  bDatalen := 8

/-- A memory map of one word. -/
def adapter : Adapter :=
  .start config ⟨[(0x80000000, 0x1122334455667788)]⟩ .empty false true 0 .insertion fun _ => 0

/-- Two beats that write some bytes each. -/
def putTwo : Transaction config :=
  .put ⟨.putPartialData, 0, 4, 1, 0x80000000, 0x02, 0xAB00⟩
    [⟨.putPartialData, 0, 4, 1, 0x80000000, 0x81, 0xCD000000000000EF⟩] (.inr rfl) rfl rfl (by decide)

/-- Then the two words are read. -/
def traffic : List (Transaction config) :=
  [putTwo, .get ⟨.get, 0, 4, 2, 0x80000000, 0xFF, 0⟩ rfl rfl]

end Demo

/-- The reads see the bytes written, and 0 where nothing is. -/
theorem uncached_refines_demo : ∃ (s' : Adapter) (msgs : List DMessage),
    Demo.adapter.aRun Demo.config (Demo.traffic.flatMap (·.beats)) = .ok s' ∧
    s'.aOngoings = .empty ∧ s'.dQueue = msgs.map (fun msg => (some msg, none)) ∧
    msgs.map (DMessage.view 8) =
      [⟨.accessAck, 0, 4, 1, 0, 0, 0, [0, 0, 0, 0, 0, 0, 0, 0]⟩,
       ⟨.accessAckData, 0, 4, 2, 0, 0, 0, [0x88, 0xAB, 0x66, 0x55, 0x44, 0x33, 0x22, 0x11]⟩,
       ⟨.accessAckData, 0, 4, 2, 0, 0, 0, [0xEF, 0, 0, 0, 0, 0, 0, 0xCD]⟩] := by
  have hpass : ∀ t ∈ Demo.traffic, ∀ b ∈ t.beats, b.Passes Demo.config := fun _ _ _ _ => rfl
  have hp : ∀ t ∈ Demo.traffic, Demo.adapter.perm (Demo.config.blockAddr t.head.address) = .tip := by
    decide +kernel
  obtain ⟨s', msgs, hs', ho', hqueue, hmsgs, _⟩ := uncached_refines rfl Demo.traffic hpass hp 2
  refine ⟨s', msgs, hs', ho', hqueue, hmsgs.trans ?_⟩
  decide +kernel

end Difuzz.TileLink
