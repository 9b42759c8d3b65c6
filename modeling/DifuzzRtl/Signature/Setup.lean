/-
  File:      DifuzzRtl/Signature/Setup.lean
  Subject:   The memory that a test of the RTL host starts from (`rvRTLhost.run_test` and `set_bootrom`
             of RTLSim/host.py), against the image that the simulator loads.

  * `setUpMemory` -- the boot ROM, the lines of the hex file by position, zeros for the signature and
    `tohost`, and the loop over the data sections, which is a loop over `range(0)`.
  * `Program` -- the addresses of a program as the link script places its sections: the code, then
    `tohost`, then the signature, then the data, section `n` with its share of the data.
  * `SameStart` -- both memories agree where the program starts from.
  * `setUp_same_iff` -- they do exactly if all the data is zero.
-/
import DifuzzRtl.Signature.Checker

namespace Difuzz.Signature

open Text Mutator

/-! ## 1. The memory of the host -/

abbrev Memory := Dict Nat Int

/-- `range(start, stop, 8)`. -/
def range8 (start stop : Nat) : List Nat :=
  (List.range ((stop - start + 7) / 8)).map fun k => start + 8 * k

/-- The instructions of the boot ROM: it jumps to 0x80000000. -/
def bootrom : List Nat :=
  [0x00000297, 0x02028593, 0xF1402573, 0x0182B283, 0x00028067, 0x00000000, 0x80000000, 0x00000000,
   0x00000000, 0x00000000, 0x00000000, 0x00000000, 0x00000000, 0x00000000, 0x00000000, 0x00000000]

/-- `set_bootrom`: two instructions in a word. -/
def setBootrom : Memory :=
  (List.range 8).foldl (fun m k => m.set (0x10000 + (2 * k) * 4)
    (((bootrom.getD (2 * k + 1) 0) <<< 32 ||| bootrom.getD (2 * k) 0 : Nat) : Int)) Dict.empty

/-- `memory[addr] = int(lines[i], 16)`, for the addresses in order. -/
def loadHex (lines : List Text) : List Nat → Nat → Memory → Except Exn Memory
  | [], _, m => .ok m
  | addr :: addrs, i, m =>
      match lines[i]? with
      | some l => do loadHex lines addrs (i + 1) (m.set addr (← hexInt l))
      | none => .error .index

/-- `memory[addr] = 0`. -/
def clear (addrs : List Nat) (m : Memory) : Memory := addrs.foldl (fun m addr => m.set addr 0) m

/-- The words of a section, from an offset of the data on. -/
def loadWords (data : List Int) : List Nat → Nat → Memory → Except Exn Memory
  | [], _, m => .ok m
  | addr :: addrs, i, m =>
      match data[i]? with
      | some word => loadWords data addrs (i + 1) (m.set addr word)
      | none => .error .index

/-- The loop over the data sections; no section ends before it starts. -/
def loadSections (symbols : Symbols) (data : List Int) : List Nat → Nat → Memory → Except Exn Memory
  | [], _, m => .ok m
  | n :: ns, offset, m => do
      let dataStart ← symbol symbols (randomData n)
      let dataEnd ← symbol symbols (endData n)
      let m ← loadWords data (range8 (dataStart / 8 * 8) (dataEnd / 8 * 8)) offset m
      loadSections symbols data ns (offset + (dataEnd - dataStart) / 8) m

def startSymbol : Text := "_start".toList

def endMainSymbol : Text := "_end_main".toList

def tohostSymbol : Text := "tohost".toList

/-- **The memory that `run_test` hands to `adapter.start`.** -/
def setUpMemory (symbols : Symbols) (lines : List Text) (data : List Int) : Except Exn Memory := do
  let start ← symbol symbols startSymbol
  let stop ← symbol symbols endMainSymbol
  let memory ← loadHex lines (range8 start (stop + 36)) 0 setBootrom
  let tohost ← symbol symbols tohostSymbol
  let sigStart ← symbol symbols beginSignature
  let sigEnd ← symbol symbols endSignature
  let memory := clear (range8 (sigStart / 8 * 8) sigEnd) (memory.set tohost 0)
  loadSections symbols data (List.range 0) 0 memory

/-! ## 2. Programs -/

/-- The addresses of a program. -/
structure Program where
  start : Nat
  endMain : Nat
  tohost : Nat
  sigStart : Nat
  sigEnd : Nat
  dataStart : Nat → Nat

/-- The words of a section: `len(data) // 6`. -/
def sectionSize (data : List Int) : Nat := data.length / 6

/-- A symbol table with these addresses. The link script puts the code at 0x80000000, and `tohost`, the
    signature and the data on later pages, in this order. -/
structure Program.Linked (P : Program) (symbols : Symbols) (size : Nat) : Prop where
  start : symbols.get? startSymbol = some P.start
  endMain : symbols.get? endMainSymbol = some P.endMain
  tohost : symbols.get? tohostSymbol = some P.tohost
  sigBegin : symbols.get? beginSignature = some P.sigStart
  sigEnd : symbols.get? endSignature = some P.sigEnd
  data : ∀ n < 6, symbols.get? (randomData n) = some (P.dataStart n) ∧
    symbols.get? (endData n) = some (P.dataStart n + 8 * size)
  aligned : 8 ∣ P.start ∧ 8 ∣ P.sigStart ∧ ∀ n < 6, 8 ∣ P.dataStart n
  code : 0x80000000 ≤ P.start ∧ P.start ≤ P.endMain ∧ P.endMain ≤ P.tohost ∧
    P.tohost + 8 ≤ P.sigStart
  behind : ∀ n < 6, P.sigEnd ≤ P.dataStart n ∧ P.endMain + 44 ≤ P.dataStart n ∧
    P.tohost + 8 ≤ P.dataStart n

/-- The image: a word at each address, in the data sections the words of the data. -/
def Program.Holds (P : Program) (image : Nat → Int) (data : List Int) : Prop :=
  ∀ n < 6, ∀ k < sectionSize data,
    image (P.dataStart n + 8 * k) = data.getD (n * sectionSize data + k) 0

/-- The lines list the words of the image in the order of their addresses, as far as they are read. -/
def Program.Lists (P : Program) (image : Nat → Int) (lines : List Text) : Prop :=
  ∀ k, P.start + 8 * k < P.endMain + 36 →
    ∃ t, lines[k]? = some t ∧ hexInt t = .ok (image (P.start + 8 * k))

/-- **Both simulators start from the same memory**; a word that the host has not is read as 0. -/
structure SameStart (P : Program) (size : Nat) (image : Nat → Int) (memory : Memory) : Prop where
  code : ∀ a, P.start ≤ a → a < P.endMain → 8 ∣ a → memory.getD a 0 = image a
  data : ∀ n < 6, ∀ k < size, memory.getD (P.dataStart n + 8 * k) 0 = image (P.dataStart n + 8 * k)
  signature : ∀ a, P.sigStart ≤ a → a < P.sigEnd → 8 ∣ a → memory.getD a 0 = 0
  tohost : memory.getD P.tohost 0 = 0

/-! ## 3. What each step writes -/

theorem mem_range8 {start stop a : Nat} (hs : 8 ∣ start) :
    a ∈ range8 start stop ↔ start ≤ a ∧ a < stop ∧ 8 ∣ a := by
  unfold range8
  rw [List.mem_map]
  constructor
  · intro h
    obtain ⟨k, hk, rfl⟩ := h
    have hk := List.mem_range.mp hk
    omega
  · intro h
    refine ⟨(a - start) / 8, List.mem_range.mpr ?_, ?_⟩ <;> omega

/-- **The lines of the hex file** are read in order, and nothing else changes. -/
theorem loadHex_ok {lines : List Text} {image : Nat → Int} {addrs : List Nat} {i : Nat} {m : Memory}
    (h : ∀ j a, addrs[j]? = some a → ∃ t, lines[i + j]? = some t ∧ hexInt t = .ok (image a)) :
    ∃ m', loadHex lines addrs i m = .ok m' ∧
      ∀ x, m'.getD x 0 = if x ∈ addrs then image x else m.getD x 0 := by
  induction addrs generalizing i m with
  | nil => exact ⟨m, rfl, fun x => rfl⟩
  | cons addr addrs ih =>
      obtain ⟨t, ht, hv⟩ := h 0 addr rfl
      obtain ⟨m', hm', hread⟩ := ih (i := i + 1) (m := m.set addr (image addr)) fun j a ha => by
        rw [Nat.add_assoc, Nat.add_comm 1 j]
        exact h (j + 1) a ha
      refine ⟨m', ?_, fun x => ?_⟩
      · rw [Nat.add_zero] at ht
        rw [loadHex, ht]
        dsimp only
        rw [hv]
        exact hm'
      · rw [hread, Dict.getD_set]
        by_cases hx : x = addr
        · subst hx
          simp
        · simp [hx]

theorem getD_clear (addrs : List Nat) (m : Memory) (x : Nat) :
    (clear addrs m).getD x 0 = if x ∈ addrs then 0 else m.getD x 0 := by
  unfold clear
  induction addrs generalizing m with
  | nil => rfl
  | cons addr addrs ih =>
      rw [List.foldl_cons, ih, Dict.getD_set]
      by_cases hx : x = addr
      · subst hx
        simp
      · simp [hx]

/-- The boot ROM is not in the memory of programs. -/
theorem getD_setBootrom {x : Nat} (hx : 0x80000000 ≤ x) : setBootrom.getD x 0 = 0 := by
  have hkeys : ∀ a ∈ setBootrom.keys, a < 0x80000000 := by decide
  have hnot : x ∉ setBootrom.keys := fun h => absurd (hkeys x h) (Nat.not_lt_of_le hx)
  unfold Dict.getD
  rw [Dict.get?_eq_none hnot]
  rfl

/-! ## 4. The two memories -/

section SetUp

variable {P : Program} {symbols : Symbols} {lines : List Text} {data : List Int} {image : Nat → Int}
  {size : Nat}

/-- **The memory of the host**: zeros in the signature and at `tohost`, the image from the start of the
    code on, and nothing behind it. -/
theorem setUpMemory_ok (data : List Int) (h : P.Linked symbols size) (hlines : P.Lists image lines) :
    ∃ memory, setUpMemory symbols lines data = .ok memory ∧ ∀ x, 0x80000000 ≤ x →
      memory.getD x 0 =
        if x ∈ range8 (P.sigStart / 8 * 8) P.sigEnd ∨ x = P.tohost then 0
        else if x ∈ range8 P.start (P.endMain + 36) then image x else 0 := by
  have hlist : ∀ j a, (range8 P.start (P.endMain + 36))[j]? = some a →
      ∃ t, lines[0 + j]? = some t ∧ hexInt t = .ok (image a) := by
    intro j a ha
    unfold range8 at ha
    rw [List.getElem?_map, Option.map_eq_some_iff] at ha
    obtain ⟨k, hk, rfl⟩ := ha
    obtain ⟨hj, hjk⟩ := List.getElem?_eq_some_iff.mp hk
    rw [List.length_range] at hj
    rw [List.getElem_range] at hjk
    subst hjk
    rw [Nat.zero_add]
    exact hlines j (by omega)
  obtain ⟨m, hm, hread⟩ := loadHex_ok (m := setBootrom) hlist
  refine ⟨clear (range8 (P.sigStart / 8 * 8) P.sigEnd) (m.set P.tohost 0), ?_, fun x hx => ?_⟩
  · unfold setUpMemory symbol
    rw [h.start, h.endMain, h.tohost, h.sigBegin, h.sigEnd]
    show (do
      let memory ← loadHex lines (range8 P.start (P.endMain + 36)) 0 setBootrom
      loadSections symbols data (List.range 0) 0
        (clear (range8 (P.sigStart / 8 * 8) P.sigEnd) (memory.set P.tohost 0))) = _
    rw [hm]
    rfl
  · rw [getD_clear, Dict.getD_set, hread, getD_setBootrom hx]
    by_cases hsig : x ∈ range8 (P.sigStart / 8 * 8) P.sigEnd
    · rw [if_pos hsig, if_pos (.inl hsig)]
    · rw [if_neg hsig]
      by_cases ht : x = P.tohost
      · rw [if_pos ht, if_pos (.inr ht)]
      · rw [if_neg ht, if_neg fun hor : _ ∨ _ => hor.elim hsig ht]

/-- All the data of the six sections. -/
theorem data_zero_iff {n : Nat} :
    (∀ j < 6 * n, data.getD j 0 = 0) ↔ ∀ i < 6, ∀ k < n, data.getD (i * n + k) 0 = 0 := by
  constructor
  · intro h i hi k hk
    refine h _ ?_
    calc i * n + k < i * n + n := Nat.add_lt_add_left hk _
      _ = (i + 1) * n := (Nat.succ_mul i n).symm
      _ ≤ 6 * n := Nat.mul_le_mul_right _ hi
  · intro h j hj
    have hpos : 0 < n := Nat.pos_of_mul_pos_left (Nat.lt_of_le_of_lt (Nat.zero_le j) hj)
    have hdiv : j / n < 6 := (Nat.div_lt_iff_lt_mul hpos).mpr hj
    have hj' := h (j / n) hdiv (j % n) (Nat.mod_lt _ hpos)
    rw [Nat.mul_comm, Nat.div_add_mod] at hj'
    exact hj'

/-- What the memory is worth where the program starts from: only the data can differ. -/
theorem sameStart_iff (h : P.Linked symbols (sectionSize data)) (himage : P.Holds image data)
    {memory : Memory} (hread : ∀ x, 0x80000000 ≤ x → memory.getD x 0 =
      if x ∈ range8 (P.sigStart / 8 * 8) P.sigEnd ∨ x = P.tohost then 0
      else if x ∈ range8 P.start (P.endMain + 36) then image x else 0) :
    SameStart P (sectionSize data) image memory ↔ ∀ j < 6 * sectionSize data, data.getD j 0 = 0 := by
  obtain ⟨hstart, hsig, hdata⟩ := h.aligned
  obtain ⟨hbase, hmain, hcode, htohost⟩ := h.code
  rw [Nat.div_mul_cancel hsig] at hread
  -- a word of the data is not in the host's memory
  have hword : ∀ n < 6, ∀ k, memory.getD (P.dataStart n + 8 * k) 0 = 0 := by
    intro n hn k
    obtain ⟨hend, hbehind, hto⟩ := h.behind n hn
    rw [hread _ (by omega), if_neg, if_neg]
    · rw [mem_range8 hstart]
      omega
    · rw [mem_range8 hsig]
      omega
  rw [data_zero_iff]
  constructor
  · intro hsame n hn k hk
    rw [← himage n hn k hk, ← hsame.data n hn k hk, hword n hn k]
  · intro hzero
    refine ⟨fun a hlo hhi ha => ?_, fun n hn k hk => ?_, fun a hlo hhi ha => ?_, ?_⟩
    · rw [hread a (by omega), if_neg, if_pos ((mem_range8 hstart).mpr ⟨hlo, by omega, ha⟩)]
      rw [mem_range8 hsig]
      omega
    · rw [hword n hn k, himage n hn k hk, hzero n hn k hk]
    · rw [hread a (by omega), if_pos (.inl ((mem_range8 hsig).mpr ⟨by omega, hhi, ha⟩))]
    · rw [hread _ (by omega), if_pos (.inr rfl)]

/-- **The simulators start from the same memory only if the data is zero**: the host loads none of the
    six sections. -/
theorem setUp_same_iff (h : P.Linked symbols (sectionSize data)) (himage : P.Holds image data)
    (hlines : P.Lists image lines) :
    ∃ memory, setUpMemory symbols lines data = .ok memory ∧
      (SameStart P (sectionSize data) image memory ↔
        ∀ j < 6 * sectionSize data, data.getD j 0 = 0) := by
  obtain ⟨memory, hm, hread⟩ := setUpMemory_ok data h hlines
  exact ⟨memory, hm, sameStart_iff h himage hread⟩

end SetUp

/-! ## 5. A short program, with two words in each section -/

def shortProgram : Program where
  start := 0x80000000
  endMain := 0x80000010
  tohost := 0x80001000
  sigStart := 0x80002000
  sigEnd := 0x80002010
  dataStart n := 0x80010000 + 0x10000 * n

def shortSymbols : Symbols :=
  Dict.ofList ([(startSymbol, shortProgram.start), (endMainSymbol, shortProgram.endMain),
    (tohostSymbol, shortProgram.tohost), (beginSignature, shortProgram.sigStart),
    (endSignature, shortProgram.sigEnd)] ++
    ((List.range 6).map fun n => (randomData n, shortProgram.dataStart n)) ++
    (List.range 6).map fun n => (endData n, shortProgram.dataStart n + 16))

/-- The twelve words are the first multiples of one. -/
def shortData (word : Int) : List Int := (List.range 12).map fun (j : Nat) => word * (j + 1)

def shortImage (word : Int) (a : Nat) : Int :=
  if a < 0x80010000 then 0
  else (shortData word).getD ((a - 0x80010000) / 0x10000 * 2 + a % 0x10000 / 8) 0

def shortHex : List Text := List.replicate 7 "0000000000000000\n".toList

@[simp] theorem sectionSize_shortData (word : Int) : sectionSize (shortData word) = 2 := by
  unfold sectionSize shortData
  rw [List.length_map, List.length_range]

theorem shortProgram_linked (word : Int) :
    shortProgram.Linked shortSymbols (sectionSize (shortData word)) where
  start := by decide
  endMain := by decide
  tohost := by decide
  sigBegin := by decide
  sigEnd := by decide
  data := by
    rw [sectionSize_shortData]
    show ∀ n < 6, shortSymbols.get? (randomData n) = some (0x80010000 + 0x10000 * n) ∧
      shortSymbols.get? (endData n) = some (0x80010000 + 0x10000 * n + 8 * 2)
    decide
  aligned := by
    refine ⟨by decide, by decide, fun n _ => ?_⟩
    show 8 ∣ 0x80010000 + 0x10000 * n
    omega
  code := by decide
  behind := fun n _ => by
    show 0x80002010 ≤ 0x80010000 + 0x10000 * n ∧ 0x80000010 + 44 ≤ 0x80010000 + 0x10000 * n ∧
      0x80001000 + 8 ≤ 0x80010000 + 0x10000 * n
    omega

theorem shortProgram_holds (word : Int) :
    shortProgram.Holds (shortImage word) (shortData word) := by
  intro n hn k hk
  rw [sectionSize_shortData] at hk ⊢
  show shortImage word (0x80010000 + 0x10000 * n + 8 * k) = (shortData word).getD (n * 2 + k) 0
  have hindex : (0x80010000 + 0x10000 * n + 8 * k - 0x80010000) / 0x10000 * 2 +
      (0x80010000 + 0x10000 * n + 8 * k) % 0x10000 / 8 = n * 2 + k := by omega
  unfold shortImage
  rw [if_neg (by omega), hindex]

theorem shortProgram_lists (word : Int) : shortProgram.Lists (shortImage word) shortHex := by
  intro k hk
  have hk : 0x80000000 + 8 * k < 0x80000010 + 36 := hk
  refine ⟨"0000000000000000\n".toList, ?_, ?_⟩
  · unfold shortHex
    rw [List.getElem?_replicate, if_pos (by omega)]
  · have hcode : shortProgram.start + 8 * k < 0x80010000 := by
      show 0x80000000 + 8 * k < 0x80010000
      omega
    unfold shortImage
    rw [if_pos hcode]
    decide

theorem setUp_same_zero :
    ∃ memory, setUpMemory shortSymbols shortHex (shortData 0) = .ok memory ∧
      (SameStart shortProgram 2 (shortImage 0) memory ↔ ∀ j < 6 * 2, (shortData 0).getD j 0 = 0) :=
  sectionSize_shortData 0 ▸
    setUp_same_iff (shortProgram_linked 0) (shortProgram_holds 0) (shortProgram_lists 0)

/-- With the words 1 to 12 in the sections, the host has 0 where the image has the first one. -/
theorem setUp_differs :
    shortProgram.Linked shortSymbols (sectionSize (shortData 1)) ∧
    shortProgram.Holds (shortImage 1) (shortData 1) ∧
    shortProgram.Lists (shortImage 1) shortHex ∧
    ∃ memory, setUpMemory shortSymbols shortHex (shortData 1) = .ok memory ∧
      ¬ SameStart shortProgram 2 (shortImage 1) memory := by
  have hlinked := shortProgram_linked 1
  obtain ⟨memory, hm, hread⟩ :=
    setUpMemory_ok (shortData 1) hlinked (shortProgram_lists 1)
  refine ⟨hlinked, shortProgram_holds 1, shortProgram_lists 1, memory, hm, fun hsame => ?_⟩
  have himage : shortImage 1 0x80010000 = 1 := by decide +kernel
  have hword : memory.getD 0x80010000 0 = shortImage 1 0x80010000 :=
    hsame.data 0 (by decide) 0 (by decide)
  rw [himage, hread 0x80010000 (by decide), if_neg, if_neg] at hword
  · exact absurd hword (by decide)
  · rw [mem_range8 (by decide)]
    decide
  · rw [mem_range8 (by decide)]
    decide

end Difuzz.Signature
