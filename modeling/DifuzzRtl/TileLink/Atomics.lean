/-
  File:      DifuzzRtl/TileLink/Atomics.lean
  Subject:   Atomic operations on a block that the adapter owns.

  The adapter computes with integers of any size: it takes the operands out of the word by a mask
  and a shift, gives them a sign by hand, and puts the result back by another shift and the same
  mask. What the operation is for does not know of any of this: it is a function on numbers of
  `8 * k` bits, applied to `k` bytes of a word.

  * `AtomicOp`, `AtomicOp.apply` -- the operations, on numbers of fixed width.
  * `AtomicBeat` -- a request in one beat, its mask one row of bytes.
  * `signedOp_eq` -- the sign given by hand is that of two's complement.
  * `AtomicOp.run_spec` -- the integer that is computed has the right residue.
  * `aPortMonitor_atomic` -- what one request does to memory and queue.
  * `atomic_updates` -- the bytes of the row are updated, everything else stays.
  * `atomic_answers_iff` -- the answer holds the old bytes in their place only for the lowest row,
    or when they are 0.
-/
import DifuzzRtl.Lib.Lanes
import DifuzzRtl.TileLink.ByteMemory

namespace Difuzz.TileLink

/-! ## 1. The operations -/

/-- The operations of ArithmeticData, then those of LogicalData. -/
inductive AtomicOp where
  | min | max | minu | maxu | add
  | xor | or | and | swap
  deriving DecidableEq, Repr

namespace AtomicOp

def opcode : AtomicOp → AOpcode
  | .min | .max | .minu | .maxu | .add => .arithmeticData
  | .xor | .or | .and | .swap => .logicalData

/-- `MIN` to `ADD` and `XOR` to `SWAP` of the definitions. -/
def param : AtomicOp → Nat
  | .min => 0
  | .max => 1
  | .minu => 2
  | .maxu => 3
  | .add => 4
  | .xor => 0
  | .or => 1
  | .and => 2
  | .swap => 3

/-- **What an operation is**: `x` comes with the request, `y` is in memory. -/
def apply {w : Nat} (op : AtomicOp) (x y : BitVec w) : BitVec w :=
  match op with
  | .min => if x.sle y then x else y
  | .max => if x.sle y then y else x
  | .minu => if x.ule y then x else y
  | .maxu => if x.ule y then y else x
  | .add => x + y
  | .xor => x ^^^ y
  | .or => x ||| y
  | .and => x &&& y
  | .swap => x

/-- The operation of the source that is run for it. -/
def run (op : AtomicOp) (mask operand1 operand2 : Nat) : Option Int :=
  match op.opcode with
  | .arithmeticData => arithmeticOp op.param operand1 operand2 mask
  | _ => logicalOp op.param operand1 operand2

end AtomicOp

/-- A request in one beat, for the `k` bytes from byte `o` of the beat on. -/
structure AtomicBeat (cfg : Config) where
  op : AtomicOp
  beat : ABeat
  o : Nat
  k : Nat
  opcode : beat.opcode = op.opcode
  param : beat.param = op.param
  mask : beat.mask = lanesMask o k
  pos : 0 < k
  inside : o + k ≤ cfg.datalen
  single : cfg.burstLen beat.size = 1
  /-- only the debug mode checks this -/
  aligned : cfg.debug = true → beat.address % 2 ^ beat.size = 0

/-! ## 2. Operands -/

/-- A row of bytes has 8 bits for each of them. -/
theorem sizeOp_lanesMask (o k : Nat) : sizeOp (lanesMask o k) = 8 * k := by
  induction o with
  | zero =>
      induction k with
      | zero =>
          unfold sizeOp
          rfl
      | succ k ih =>
          have hpos : 1 ≤ 2 ^ k := Nat.two_pow_pos k
          have hmask : lanesMask 0 (k + 1) = 2 * lanesMask 0 k + 1 := by
            unfold lanesMask
            rw [pow_succ]
            omega
          have hodd : ¬ (2 * lanesMask 0 k + 1) % 2 = 0 := by omega
          have hhalf : (2 * lanesMask 0 k + 1) / 2 = lanesMask 0 k := by omega
          unfold sizeOp
          rw [hmask, dif_neg (by omega), if_neg hodd, hhalf, ih]
          omega
  | succ o ih =>
      have hmask : lanesMask (o + 1) k = 2 * lanesMask o k := by
        unfold lanesMask
        rw [pow_succ]
        ring
      have heven : 2 * lanesMask o k % 2 = 0 := by omega
      have hhalf : 2 * lanesMask o k / 2 = lanesMask o k := by omega
      rcases Nat.eq_zero_or_pos (lanesMask o k) with h0 | hpos
      · rw [hmask, h0, Nat.mul_zero, ← h0, ih]
      · unfold sizeOp
        rw [hmask, dif_neg (by omega), if_pos heven, hhalf, ih, Nat.zero_add]

theorem lowBit_lanesMask (o : Nat) {k : Nat} (hk : 0 < k) : lowBit (lanesMask o k) = 2 ^ o := by
  -- below the row there is nothing, and its lowest bit is what the predecessor clears
  have hsplit : lanesMask o k = 2 ^ o * (2 * (2 ^ (k - 1) - 1) + 1) := by
    obtain ⟨k, rfl⟩ := Nat.exists_eq_add_of_lt hk
    have hpos : 1 ≤ 2 ^ k := Nat.two_pow_pos k
    have hodd : 2 ^ (k + 1) - 1 = 2 * (2 ^ k - 1) + 1 := by
      rw [pow_succ]
      omega
    unfold lanesMask
    rw [Nat.zero_add, Nat.add_sub_cancel, hodd, Nat.mul_comm]
  have hpow := Nat.two_pow_pos o
  have hpred : lanesMask o k - 1 = 2 ^ o * (2 * (2 ^ (k - 1) - 1)) + (2 ^ o - 1) := by
    rw [hsplit, Nat.mul_add, Nat.mul_one]
    omega
  refine Nat.eq_of_testBit_eq fun i => ?_
  unfold lowBit
  rw [Nat.testBit_ldiff, hpred, Nat.testBit_two_pow_mul_add _ (by omega), testBit_lanesMask,
    Nat.testBit_two_pow]
  by_cases hi : i < o
  · simp [hi, hi.ne']
  · rw [if_neg hi]
    rcases Nat.eq_or_lt_of_le (Nat.le_of_not_lt hi) with rfl | hlt
    · simp [hk]
    · obtain ⟨j, rfl⟩ := Nat.exists_eq_add_of_lt hlt
      have hj : o + j + 1 - o = j + 1 := by omega
      have hne : ¬ o = o + j + 1 := by omega
      rw [hj, Nat.testBit_add_one]
      simp [hne, Nat.testBit_two_pow_sub_one]
      omega

theorem maskOffset_lanesMask (o : Nat) {k : Nat} (hk : 0 < k) :
    Adapter.maskOffset (lanesMask o k) = .ok (8 * o) := by
  unfold Adapter.maskOffset
  rw [if_neg (lanesMask_ne_zero hk), lowBit_lanesMask o hk, Nat.log2_two_pow, Nat.mul_comm]

/-- A row passes the check of the debug mode. -/
theorem checkContiguous_lanesMask (title : String) (o : Nat) {k : Nat} (hk : 0 < k) :
    checkContiguous title (lanesMask o k) = .ok () := by
  unfold checkContiguous
  refine check_ok.mpr ?_
  have hsum : lanesMask o k + lowBit (lanesMask o k) = 2 ^ (o + k) := by
    have hpos : 1 ≤ 2 ^ k := Nat.two_pow_pos k
    rw [lowBit_lanesMask o hk]
    unfold lanesMask
    rw [Nat.sub_mul, Nat.one_mul, Nat.sub_add_cancel (Nat.le_mul_of_pos_left _ hpos), pow_add,
      Nat.mul_comm]
  refine Nat.eq_of_testBit_eq fun i => ?_
  rw [hsum, Nat.testBit_and, testBit_lanesMask, Nat.testBit_two_pow, Nat.zero_testBit]
  by_cases hi : o + k = i
  · simp [← hi]
  · simp [hi]

/-- **The sign**: an operand with its sign is the value of two's complement. -/
theorem signedOp_eq {w : Nat} (hw : 0 < w) (x : BitVec w) : signedOp w x.toNat = x.toInt := by
  have hlt := x.isLt
  have hhalf : 2 ^ w = 2 * 2 ^ (w - 1) := by
    rw [← pow_succ', Nat.sub_add_cancel hw]
  have hquot : x.toNat / 2 ^ (w - 1) < 2 := Nat.div_lt_of_lt_mul (by omega)
  have hpos := Nat.two_pow_pos (w - 1)
  unfold signedOp
  rw [BitVec.toInt_eq_msb_cond, BitVec.msb_eq_decide, Nat.shiftRight_eq_div_pow, Nat.and_one_is_mod,
    Nat.mod_eq_of_lt hquot]
  by_cases hge : 2 ^ (w - 1) ≤ x.toNat
  · -- the highest bit is set: the complement is taken back
    have hone : x.toNat / 2 ^ (w - 1) = 1 :=
      Nat.le_antisymm (by omega) ((Nat.one_le_div_iff hpos).mpr hge)
    have hcompl : (-(x.toNat : Int)) % 2 ^ w = 2 ^ w - x.toNat := by
      rw [Int.emod_eq_add_self_emod, Int.emod_eq_of_lt]
      · ring
      · have := Int.ofNat_lt.mpr hlt
        push_cast at this
        omega
      · omega
    rw [if_pos hone, if_pos (decide_eq_true hge), hcompl]
    push_cast
    ring
  · have hzero : ¬ x.toNat / 2 ^ (w - 1) = 1 := by
      rw [Nat.div_eq_of_lt (by omega)]
      decide
    rw [if_neg hzero, if_neg (by simpa using hge)]

/-! ## 3. Results -/

namespace AtomicOp

/-- **The result**: an integer is computed, whose residue is the result of the operation. The
    unsigned operations look at 64 bits only. -/
theorem run_spec (op : AtomicOp) (o : Nat) {k : Nat} (hk : 0 < k) (x y : BitVec (8 * k)) :
    ∃ r, op.run (lanesMask o k) x.toNat y.toNat = some r ∧
      (k ≤ 8 → BitVec.ofInt (8 * k) r = op.apply x y) := by
  have hsign : ∀ z : BitVec (8 * k), signedOp (sizeOp (lanesMask o k)) z.toNat = z.toInt := by
    intro z
    rw [sizeOp_lanesMask]
    exact signedOp_eq (by omega) z
  -- an operand of up to 64 bits is not cut
  have hcut : k ≤ 8 → ∀ z : BitVec (8 * k), z.toNat % 2 ^ 64 = z.toNat := by
    intro hk8 z
    exact Nat.mod_eq_of_lt (z.isLt.trans_le (Nat.pow_le_pow_right (by decide) (by omega)))
  unfold run apply arithmeticOp logicalOp
  cases op with
  | min =>
      refine ⟨_, rfl, fun _ => ?_⟩
      rw [hsign, hsign, min_def, BitVec.sle_eq_decide]
      by_cases h : x.toInt ≤ y.toInt
      · rw [if_pos h, BitVec.ofInt_toInt]
        exact (if_pos (decide_eq_true h)).symm
      · rw [if_neg h, BitVec.ofInt_toInt]
        exact (if_neg (by simpa using h)).symm
  | max =>
      refine ⟨_, rfl, fun _ => ?_⟩
      rw [hsign, hsign, max_def, BitVec.sle_eq_decide]
      by_cases h : x.toInt ≤ y.toInt
      · rw [if_pos h, BitVec.ofInt_toInt]
        exact (if_pos (decide_eq_true h)).symm
      · rw [if_neg h, BitVec.ofInt_toInt]
        exact (if_neg (by simpa using h)).symm
  | minu =>
      refine ⟨_, rfl, fun hk8 => ?_⟩
      rw [hcut hk8, hcut hk8, BitVec.ofInt_natCast, min_def, BitVec.ule_eq_decide]
      by_cases h : x.toNat ≤ y.toNat
      · rw [if_pos h, BitVec.ofNat_toNat, BitVec.setWidth_eq]
        exact (if_pos (decide_eq_true h)).symm
      · rw [if_neg h, BitVec.ofNat_toNat, BitVec.setWidth_eq]
        exact (if_neg (by simpa using h)).symm
  | maxu =>
      refine ⟨_, rfl, fun hk8 => ?_⟩
      rw [hcut hk8, hcut hk8, BitVec.ofInt_natCast, max_def, BitVec.ule_eq_decide]
      by_cases h : x.toNat ≤ y.toNat
      · rw [if_pos h, BitVec.ofNat_toNat, BitVec.setWidth_eq]
        exact (if_pos (decide_eq_true h)).symm
      · rw [if_neg h, BitVec.ofNat_toNat, BitVec.setWidth_eq]
        exact (if_neg (by simpa using h)).symm
  | add =>
      refine ⟨_, rfl, fun _ => ?_⟩
      rw [hsign, hsign, BitVec.ofInt_add, BitVec.ofInt_toInt, BitVec.ofInt_toInt]
  | xor =>
      refine ⟨_, rfl, fun _ => ?_⟩
      rw [BitVec.ofInt_natCast, ← BitVec.toNat_xor, BitVec.ofNat_toNat, BitVec.setWidth_eq]
  | or =>
      refine ⟨_, rfl, fun _ => ?_⟩
      rw [BitVec.ofInt_natCast, ← BitVec.toNat_or, BitVec.ofNat_toNat, BitVec.setWidth_eq]
  | and =>
      refine ⟨_, rfl, fun _ => ?_⟩
      rw [BitVec.ofInt_natCast, ← BitVec.toNat_and, BitVec.ofNat_toNat, BitVec.setWidth_eq]
  | swap =>
      refine ⟨_, rfl, fun _ => ?_⟩
      rw [BitVec.ofInt_natCast, BitVec.ofNat_toNat, BitVec.setWidth_eq]

end AtomicOp

/-! ## 4. One request -/

namespace AtomicBeat

variable {cfg : Config} (t : AtomicBeat cfg)

theorem byteMask : ByteMask (lanesMask t.o t.k) (bitMask t.beat.mask) := by
  rw [t.mask]
  exact bitMask_byteMask _

/-- The checks of the debug mode let the request pass. -/
theorem passes : t.beat.Passes cfg := by
  have hparam := t.param
  have halign := t.aligned
  unfold ABeat.Passes aAssertions
  rw [t.opcode, t.mask, hparam]
  by_cases hdebug : cfg.debug = true
  · have hcont := fun title => checkContiguous_lanesMask title t.o t.pos
    have haligned : ∀ title, checkAligned title t.beat.size t.beat.address = .ok () :=
      fun _ => check_ok.mpr (halign hdebug)
    rw [if_pos hdebug]
    cases t.op <;>
      simp only [AtomicOp.opcode, AtomicOp.param, hcont, haligned] <;> rfl
  · rw [if_neg hdebug]

/-- The address of the word. -/
def addr : Nat := cfg.addrAligned t.beat.address

end AtomicBeat

/-- A word that is made on demand reads 0, as a missing one does. -/
theorem memory_demand (memory : Dict Nat Nat) (a : Nat) :
    (if memory.contains a then memory else memory.set a 0).getD a 0 = memory.getD a 0 ∧
    ∀ x, x ≠ a → (if memory.contains a then memory else memory.set a 0).get? x = memory.get? x := by
  by_cases h : memory.contains a = true
  · rw [if_pos h]
    exact ⟨rfl, fun _ _ => rfl⟩
  · have hnone : memory.get? a = none := by
      unfold Dict.contains at h
      simpa using h
    rw [if_neg h]
    refine ⟨?_, fun x hx => ?_⟩
    · rw [Dict.getD_set, if_pos rfl]
      unfold Dict.getD
      rw [hnone]
      rfl
    · rw [Dict.get?_set, if_neg hx]

/-- The operand is replaced and answered, once the operation has a result. -/
theorem atomicOp_spec {cfg : Config} {s : Adapter} {b : ABeat} {a offset : Nat} {op : Nat → Option Int}
    {r : Int} (hop : op ((s.memory.getD a 0 &&& bitMask b.mask) >>> offset) = some r) :
    ∃ s', s.atomicOp cfg b a offset op = .ok s' ∧
      s'.memory.get? a = some (merge (s.memory.getD a 0)
        (r * 2 ^ offset % (2 ^ (8 * cfg.datalen) : Nat)).toNat (bitMask b.mask)) ∧
      (∀ x, x ≠ a → s'.memory.get? x = s.memory.get? x) ∧
      s'.dQueue = s.dQueue ++ [(some
        { opcode := .accessAckData, size := b.size, source := b.source
          data := (s.memory.getD a 0 &&& bitMask b.mask) >>> offset }, none)] := by
  obtain ⟨hread, hother⟩ := memory_demand s.memory a
  have hwidth : cfg.dataMask + 1 = 2 ^ (8 * cfg.datalen) := Nat.sub_add_cancel (Nat.two_pow_pos _)
  unfold Adapter.atomicOp
  simp only [hread, hop, hwidth]
  refine ⟨_, rfl, ?_, fun x hx => ?_, rfl⟩
  · exact (Dict.get?_set _ _ _ _).trans (if_pos rfl)
  · exact ((Dict.get?_set _ _ _ _).trans (if_neg hx)).trans (hother x hx)

section Request

variable {cfg : Config} (t : AtomicBeat cfg) {s : Adapter}

/-- The opcode decides which operation is run, the rest is the same. -/
theorem aPortMonitor_eq_atomicOp (huh : cfg.protocol.hasUh = true) (ho : s.aOngoings.entries = [])
    (hp : s.perm (cfg.blockAddr t.beat.address) = .tip) :
    s.aPortMonitor cfg t.beat =
      (s.touch (cfg.blockAddr t.beat.address)).atomicOp cfg t.beat t.addr (8 * t.o)
        (t.op.run t.beat.mask ((t.beat.data &&& bitMask t.beat.mask) >>> (8 * t.o))) := by
  have hcount : (s.touch (cfg.blockAddr t.beat.address)).aOngoings.getD t.beat.source 0 = 0 := by
    show (s.aOngoings.entries.lookup t.beat.source).getD 0 = 0
    rw [ho]
    rfl
  have hoffset : Adapter.maskOffset t.beat.mask = .ok (8 * t.o) := by
    rw [t.mask]
    exact maskOffset_lanesMask t.o t.pos
  have hdata : ∀ title op callback,
      (s.touch (cfg.blockAddr t.beat.address)).atomicData cfg t.beat title op callback =
      (s.touch (cfg.blockAddr t.beat.address)).atomicOp cfg t.beat t.addr (8 * t.o)
        (op ((t.beat.data &&& bitMask t.beat.mask) >>> (8 * t.o))) := by
    intro title op callback
    unfold Adapter.atomicData
    simp only [hcount, t.single, hoffset, check, Adapter.perm_touch, hp, if_true, ne_eq,
      not_true_eq_false, if_false, Nat.zero_mul, Nat.add_zero]
    rfl
  rw [aPortMonitor_checked t.passes (.inl ho)]
  unfold Adapter.aOpcode Adapter.arithmeticData Adapter.logicalData AtomicOp.run
  rw [t.opcode, t.param]
  cases t.op <;> simp only [AtomicOp.opcode, huh, if_true, hdata]

/-- **One request** to a block that the adapter owns: what is in memory and in the queue then. -/
theorem aPortMonitor_atomic (huh : cfg.protocol.hasUh = true) (ho : s.aOngoings.entries = [])
    (hp : s.perm (cfg.blockAddr t.beat.address) = .tip) :
    ∃ s' new, s.aPortMonitor cfg t.beat = .ok s' ∧
      s'.memory.get? t.addr =
        some (merge (s.memory.getD t.addr 0) new (bitMask t.beat.mask)) ∧
      (t.k ≤ 8 → lanes t.o t.k new =
        t.op.apply (lanes t.o t.k t.beat.data) (lanes t.o t.k (s.memory.getD t.addr 0))) ∧
      (∀ x, x ≠ t.addr → s'.memory.get? x = s.memory.get? x) ∧
      s'.dQueue = s.dQueue ++ [(some
        { opcode := .accessAckData, size := t.beat.size, source := t.beat.source
          data := (s.memory.getD t.addr 0 &&& bitMask t.beat.mask) >>> (8 * t.o) }, none)] := by
  obtain ⟨r, hr, hres⟩ := t.op.run_spec t.o t.pos (lanes t.o t.k t.beat.data)
    (lanes t.o t.k (s.memory.getD t.addr 0))
  have hrun : t.op.run t.beat.mask ((t.beat.data &&& bitMask t.beat.mask) >>> (8 * t.o))
      ((s.memory.getD t.addr 0 &&& bitMask t.beat.mask) >>> (8 * t.o)) = some r := by
    rw [toNat_lanes t.byteMask, toNat_lanes t.byteMask, t.mask]
    exact hr
  obtain ⟨s', hs', hword, hother, hqueue⟩ :=
    @atomicOp_spec cfg (s.touch (cfg.blockAddr t.beat.address)) _ _ _ _ _ hrun
  refine ⟨s', _, (aPortMonitor_eq_atomicOp t huh ho hp).trans hs', hword, fun hk8 => ?_, hother,
    hqueue⟩
  rw [lanes_of_shifted t.inside]
  exact hres hk8

end Request

/-! ## 5. Memory and answer -/

/-- **Atomics update memory.** On a bus of up to 64 bits, a request to a block that the adapter
    owns leaves the result of the operation in the bytes of its row. All other bits of the word,
    and all other words, stay. -/
theorem atomic_updates {cfg : Config} (t : AtomicBeat cfg) {s : Adapter}
    (hbus : 8 * cfg.datalen ≤ 64) (huh : cfg.protocol.hasUh = true)
    (ho : s.aOngoings.entries = []) (hp : s.perm (cfg.blockAddr t.beat.address) = .tip) :
    ∃ s' word, s.aPortMonitor cfg t.beat = .ok s' ∧ s'.memory.get? t.addr = some word ∧
      lanes t.o t.k word =
        t.op.apply (lanes t.o t.k t.beat.data) (lanes t.o t.k (s.memory.getD t.addr 0)) ∧
      (∀ i, ¬ (8 * t.o ≤ i ∧ i < 8 * (t.o + t.k)) →
        word.testBit i = (s.memory.getD t.addr 0).testBit i) ∧
      ∀ x, x ≠ t.addr → s'.memory.get? x = s.memory.get? x := by
  have hinside := t.inside
  obtain ⟨s', new, hs', hword, hnew, hother, _⟩ := aPortMonitor_atomic t huh ho hp
  refine ⟨s', _, hs', hword, ?_, fun i hi => testBit_merge_outside t.byteMask _ _ hi, hother⟩
  rw [lanes_merge t.byteMask]
  exact hnew (by omega)

namespace Demo

/-- A 32-bit operation on the upper half of the word of the memory map, with the operand -1. -/
def upper (op : AtomicOp) : AtomicBeat config where
  op
  beat := ⟨op.opcode, op.param, 2, 1, 0x80000004, 0xF0, 0xFFFFFFFF00000000⟩
  o := 4
  k := 4
  opcode := rfl
  param := rfl
  mask := rfl
  pos := by decide
  inside := by decide
  single := (by decide : config.burstLen 2 = 1)
  aligned _ := (by decide : 0x80000004 % 2 ^ 2 = 0)

/-- The same on the lower half. -/
def lower (op : AtomicOp) : AtomicBeat config where
  op
  beat := ⟨op.opcode, op.param, 2, 1, 0x80000000, 0x0F, 0xFFFFFFFF⟩
  o := 0
  k := 4
  opcode := rfl
  param := rfl
  mask := rfl
  pos := by decide
  inside := by decide
  single := (by decide : config.burstLen 2 = 1)
  aligned _ := (by decide : 0x80000000 % 2 ^ 2 = 0)

end Demo

/-- The signed minimum of -1 and a positive number is -1. -/
theorem atomic_updates_min : ∃ s' word,
    Demo.adapter.aPortMonitor Demo.config (Demo.upper .min).beat = .ok s' ∧
    s'.memory.get? 0x80000000 = some word ∧ lanes 4 4 word = 0xFFFFFFFF#32 := by
  obtain ⟨s', word, hs', hword, hlanes, _⟩ :=
    atomic_updates (Demo.upper .min) (s := Demo.adapter) (by decide) rfl rfl (by decide +kernel)
  have haddr : (Demo.upper .min).addr = 0x80000000 := by decide +kernel
  rw [haddr] at hword hlanes
  have hmin : AtomicOp.min.apply (lanes 4 4 0xFFFFFFFF00000000) (lanes 4 4 0x1122334455667788) =
      0xFFFFFFFF#32 := by decide +kernel
  exact ⟨s', word, hs', hword, hlanes.trans hmin⟩

section Answer

variable {cfg : Config}

/-- **The old value comes back in its lanes**, as the words of a Get do. -/
def AnswersOld (s : Adapter) (t : AtomicBeat cfg) : Prop :=
  ∃ s' msg, s.aPortMonitor cfg t.beat = .ok s' ∧ s'.dQueue = s.dQueue ++ [(some msg, none)] ∧
    msg.opcode = .accessAckData ∧
    msg.data &&& bitMask t.beat.mask = s.memory.getD t.addr 0 &&& bitMask t.beat.mask

/-- The message of the answer has the old value shifted down. -/
theorem answersOld_iff_shifted (t : AtomicBeat cfg) {s : Adapter} (huh : cfg.protocol.hasUh = true)
    (ho : s.aOngoings.entries = []) (hp : s.perm (cfg.blockAddr t.beat.address) = .tip) :
    AnswersOld s t ↔
      (s.memory.getD t.addr 0 &&& bitMask t.beat.mask) >>> (8 * t.o) &&& bitMask t.beat.mask =
        s.memory.getD t.addr 0 &&& bitMask t.beat.mask := by
  obtain ⟨s', new, hs', _, _, _, hqueue⟩ := aPortMonitor_atomic t huh ho hp
  constructor
  · intro hx
    obtain ⟨s₁, msg, hs₁, hq₁, _, hdata⟩ := hx
    obtain rfl : s' = s₁ := Except.ok.inj (hs'.symm.trans hs₁)
    have hmsg := List.append_cancel_left (hqueue.symm.trans hq₁)
    simp only [List.cons.injEq, Prod.mk.injEq, Option.some.injEq, and_true] at hmsg
    rw [← hmsg] at hdata
    exact hdata
  · intro h
    exact ⟨s', _, hs', hqueue, rfl, h⟩

/-- **When atomics answer in place.** The old value is shifted down to operate on it, and it is
    sent so: it is in its lanes only when the row is the lowest one, or when the old bytes
    are 0. -/
theorem atomic_answers_iff (t : AtomicBeat cfg) {s : Adapter} (huh : cfg.protocol.hasUh = true)
    (ho : s.aOngoings.entries = []) (hp : s.perm (cfg.blockAddr t.beat.address) = .tip) :
    AnswersOld s t ↔ t.o = 0 ∨ s.memory.getD t.addr 0 &&& bitMask t.beat.mask = 0 := by
  have hmasked : (s.memory.getD t.addr 0 &&& bitMask t.beat.mask) &&& bitMask t.beat.mask =
      s.memory.getD t.addr 0 &&& bitMask t.beat.mask := by
    rw [Nat.and_assoc, Nat.and_self]
  rw [answersOld_iff_shifted t huh ho hp, shift_and_eq_iff hmasked]
  omega

end Answer

/-- An operation on the lower half answers in place. -/
theorem atomic_answers_lower : AnswersOld Demo.adapter (Demo.lower .add) :=
  (atomic_answers_iff (Demo.lower .add) rfl rfl (by decide +kernel)).mpr (.inl rfl)

/-- An operation on the upper half answers in the lower one. -/
theorem not_atomic_answers_upper : ¬ AnswersOld Demo.adapter (Demo.upper .add) := by
  rw [answersOld_iff_shifted (Demo.upper .add) rfl rfl (by decide +kernel)]
  decide +kernel

end Difuzz.TileLink
