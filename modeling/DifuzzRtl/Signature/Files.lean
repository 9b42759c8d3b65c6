/-
  File:      DifuzzRtl/Signature/Files.lean
  Subject:   The two writers of signature files: the instruction set simulator (`htif_t::load_program`
             and `htif_t::stop` of fesvr/htif.cc) and the end of a successful test of the RTL host
             (`rvRTLhost.run_test` and `save_signature` of RTLSim/host.py).

  * `Symbols` -- the symbols of the program, with their addresses.
  * `loadProgram`, `stop` -- the signature region and the data sections, dumped byte by byte.
  * `saveSignature`, `finishTest` -- the same, dumped word by word. The host collects the sections with
    `range(0)`.
  * `WordLines` -- what both have in common: each line shows two words, the higher one first.
-/
import DifuzzRtl.Lib.Collections
import DifuzzRtl.Lib.Effects
import DifuzzRtl.Lib.Text
import DifuzzRtl.Mutator.Definitions

namespace Difuzz.Signature

open Text

/-! ## 1. Symbols -/

abbrev Symbols := Dict Text Nat

/-- What can go wrong: a missing key, an index, a text that is no number, an assertion, a write past the
    end of a buffer, a file that was not written. -/
inductive Exn where
  | key
  | index
  | value
  | assertion
  | overflow
  | noFile
  deriving DecidableEq, Repr

/-- `symbols[name]`. -/
def symbol (symbols : Symbols) (name : Text) : Except Exn Nat :=
  match symbols.get? name with
  | some a => .ok a
  | none => .error .key

def beginSignature : Text := "begin_signature".toList

def endSignature : Text := "end_signature".toList

/-- `reg_x{}_output` and `reg_f{}_output`. -/
def regOutput (file : Char) (i : Nat) : Text :=
  "reg_".toList ++ [file] ++ digits 10 i ++ "_output".toList

def csrOutput (csr : String) : Text := csr.toList ++ "_output".toList

def randomData (i : Nat) : Text := "_random_data".toList ++ digits 10 i

def endData (i : Nat) : Text := "_end_data".toList ++ digits 10 i

/-! ## 2. The instruction set simulator -/

/-- Memory by bytes. -/
abbrev Bytes := Nat → Fin 256

/-- The fields of `htif_t` that the signature is made from. -/
structure Htif where
  sigAddr : Nat := 0
  sigLen : Nat := 0
  dataAddrs : List (Nat × Nat) := []

/-- The difference of two addresses, in 64 bits. -/
def addrDiff (a b : Nat) : Nat := (a + 2 ^ 64 - b) % 2 ^ 64

def loadProgram (symbols : Symbols) : Htif where
  sigAddr :=
    match symbols.get? beginSignature, symbols.get? endSignature with
    | some s, some _ => s
    | _, _ => 0
  sigLen :=
    match symbols.get? beginSignature, symbols.get? endSignature with
    | some s, some e => addrDiff e s
    | _, _ => 0
  dataAddrs := (List.range 6).filterMap fun i =>
    match symbols.get? (randomData i), symbols.get? (endData i) with
    | some s, some e => some (s, e)
    | _, _ => none

/-- `mem.read(addr, len, ..)`. -/
def readMem (mem : Bytes) (addr len : Nat) : List Nat :=
  (List.range len).map fun i => (mem (addr + i)).val

/-- `std::setw(2) << (uint16_t) b`, in hexadecimal with zeros for blanks. -/
def hexByte (b : Nat) : Text := formatInt 16 2 b

/-- Sixteen bytes from a place of the buffer, the last one first. -/
def blockLine (buf : List Nat) (i : Nat) : Text :=
  ((List.range 16).map fun t => hexByte (buf.getD (i + 15 - t) 0)).flatten ++ ['\n']

def dump (buf : List Nat) (len : Nat) : List Text :=
  (List.range (len / 16)).map fun k => blockLine buf (16 * k)

/-- The loop over the data sections. They are read into the buffer of the signature. -/
def stopSections (mem : Bytes) : List Nat → List (Nat × Nat) → Except Exn (List Text)
  | _, [] => .ok []
  | buf, (s, e) :: rest =>
      if buf.length < addrDiff e s then .error .overflow
      else if addrDiff e s % 16 ≠ 0 then .error .assertion
      else do
        let buf := readMem mem s (addrDiff e s) ++ buf.drop (addrDiff e s)
        return dump buf (addrDiff e s) ++ (← stopSections mem buf rest)

/-- `htif_t::stop`: the file that it writes, by lines. Buffers of every length can be made here. -/
def stop (h : Htif) (mem : Bytes) : Except Exn Text :=
  if h.sigLen = 0 then .error .noFile
  else if h.sigLen % 16 ≠ 0 then .error .assertion
  else do
    let buf := readMem mem h.sigAddr h.sigLen
    return (dump buf h.sigLen ++ (← stopSections mem buf h.dataAddrs)).flatten

/-! ## 3. The RTL host -/

/-- Memory by words, as a dictionary. -/
abbrev Words := Nat → Option Nat

def wordAt (memory : Words) (a : Nat) : Except Exn Nat :=
  match memory a with
  | some v => .ok v
  | none => .error .key

/-- The lines for `range(start, stop, 16)`. -/
def dumpWords (memory : Words) (start stop : Nat) : Except Exn (List Text) :=
  (List.range ((stop - start + 15) / 16)).mapM fun k => do
    let hi ← wordAt memory (start + 16 * k + 8)
    let lo ← wordAt memory (start + 16 * k)
    return formatInt 16 16 hi ++ formatInt 16 16 lo ++ ['\n']

def saveSignature (memory : Words) (sigStart sigEnd : Nat) (dataAddrs : List (Nat × Nat)) :
    Except Exn Text := do
  let sig ← dumpWords memory sigStart sigEnd
  let sections ← dataAddrs.mapM fun d => dumpWords memory d.1 d.2
  return (sig ++ sections.flatten).flatten

/-- The sections that `run_test` collects: its loop is over `range(0)`. -/
def dataAddrs (symbols : Symbols) : Except Exn (List (Nat × Nat)) :=
  (List.range 0).mapM fun n => do
    return (← symbol symbols (randomData n), ← symbol symbols (endData n))

/-- The end of a successful `run_test`. -/
def finishTest (symbols : Symbols) (memory : Words) : Except Exn Text := do
  let sigStart ← symbol symbols beginSignature
  let sigEnd ← symbol symbols endSignature
  saveSignature memory sigStart sigEnd (← dataAddrs symbols)

/-! ## 4. Lines of two words -/

/-- Sixteen digits for a word. -/
structure ShowsWord (t : Text) (v : Nat) : Prop where
  length : t.length = 16
  digits : AllDigits 16 t
  value : digitsValue 16 0 t = some v

/-- A line that shows the word `hi` and then the word `lo`. -/
def ShowsPair (line : Text) (p : Nat × Nat) : Prop :=
  ∃ h l, line = h ++ l ++ ['\n'] ∧ ShowsWord h p.2 ∧ ShowsWord l p.1

/-- Lines that show pairs of words. -/
abbrev WordLines := List.Forall₂ ShowsPair

theorem ShowsWord.oneLine {t : Text} {v : Nat} (h : ShowsWord t v) : OneLine t :=
  ⟨h.digits.not_mem (by decide), h.digits.not_mem (by decide)⟩

theorem ShowsPair.isLine {line : Text} {p : Nat × Nat} (h : ShowsPair line p) : IsLine line := by
  obtain ⟨h, l, rfl, hh, hl⟩ := h
  exact ⟨h ++ l, hh.oneLine.append hl.oneLine, rfl⟩

/-- The file of such lines is read back line by line. -/
theorem readlines_wordLines {lines : List Text} {ps : List (Nat × Nat)} (h : WordLines lines ps) :
    readlines lines.flatten = lines := by
  refine readlines_flatten fun l hl => ?_
  obtain ⟨p, -, hp⟩ := Forall₂.mem_left h hl
  exact hp.isLine

theorem showsWord_formatInt {v : Nat} (h : v < 2 ^ 64) : ShowsWord (formatInt 16 16 v) v :=
  ⟨length_formatInt (by decide) (by decide) (by norm_num at h ⊢; exact h),
    allDigits_formatInt (by decide) (by decide) 16 v,
    digitsValue_formatInt (by decide) (by decide) 16 v⟩

/-- The word that bytes make, the first one counting most. -/
def bigEndian (bs : List Nat) : Nat := bs.foldl (fun a b => 256 * a + b) 0

theorem digitsValue_bytes {bs : List Nat} (h : ∀ b ∈ bs, b < 256) (acc : Nat) :
    digitsValue 16 acc (bs.map hexByte).flatten =
      some (bs.foldl (fun a b => 256 * a + b) acc) := by
  induction bs generalizing acc with
  | nil => rfl
  | cons b bs ih =>
      have hlen : (hexByte b).length = 2 :=
        length_formatInt (by decide) (by decide) (h b List.mem_cons_self)
      have hvalue : digitsValue 16 0 (hexByte b) = some b :=
        digitsValue_formatInt (by decide) (by decide) 2 b
      rw [List.map_cons, List.flatten_cons, digitsValue_append, digitsValue_acc, hvalue, hlen, Option.map_some, Option.bind_some,
        ih fun x hx => h x (List.mem_cons_of_mem _ hx), List.foldl_cons]
      congr 2
      ring

/-- The line of a pair of words. -/
def pairLine (p : Nat × Nat) : Text := formatInt 16 16 p.2 ++ formatInt 16 16 p.1 ++ ['\n']

/-- Lines of words of 64 bits show them. -/
theorem wordLines_pairLine {ps : List (Nat × Nat)} (h : ∀ p ∈ ps, p.1 < 2 ^ 64 ∧ p.2 < 2 ^ 64) :
    WordLines (ps.map pairLine) ps := by
  show List.Forall₂ ShowsPair _ _
  rw [List.forall₂_map_left_iff, List.forall₂_same]
  intro p hp
  exact ⟨_, _, rfl, showsWord_formatInt (h p hp).2, showsWord_formatInt (h p hp).1⟩

theorem bigEndian_lt {bs : List Nat} (h : ∀ b ∈ bs, b < 256) : bigEndian bs < 256 ^ bs.length := by
  have hfold : ∀ acc, bs.foldl (fun a b => 256 * a + b) acc < 256 ^ bs.length * (acc + 1) := by
    induction bs with
    | nil =>
        intro acc
        simp
    | cons b bs ih =>
        intro acc
        have hb := h b List.mem_cons_self
        rw [List.foldl_cons, List.length_cons, Nat.pow_succ, Nat.mul_assoc]
        refine Nat.lt_of_lt_of_le (ih (fun x hx => h x (List.mem_cons_of_mem _ hx)) _) ?_
        exact Nat.mul_le_mul_left _ (by omega)
  have h0 := hfold 0
  rw [Nat.mul_one] at h0
  exact h0

/-- **Bytes and words are written the same**: two digits for each byte are the digits of the word. -/
theorem hexBytes_eq {bs : List Nat} (hl : bs.length = 8) (h : ∀ b ∈ bs, b < 256) :
    (bs.map hexByte).flatten = formatInt 16 16 (bigEndian bs) := by
  have hwritten : WrittenDigits 16 (bs.map hexByte).flatten := by
    intro c hc
    obtain ⟨t, ht, hct⟩ := List.mem_flatten.mp hc
    obtain ⟨b, -, rfl⟩ := List.mem_map.mp ht
    exact writtenDigits_formatInt (by decide) 2 b c hct
  have hlength : (bs.map hexByte).flatten.length = 16 := by
    have hmap : bs.map (List.length ∘ hexByte) = bs.map fun _ => 2 :=
      List.map_congr_left fun b hb => length_formatInt (by decide) (by decide) (h b hb)
    rw [List.length_flatten, List.map_map, hmap, List.map_const', hl]
    rfl
  have hlt : bigEndian bs < 16 ^ 16 := by
    have hlt := bigEndian_lt h
    rw [hl] at hlt
    exact hlt
  have hvalue : digitsValue 16 0 (bs.map hexByte).flatten =
      digitsValue 16 0 (formatInt 16 16 (bigEndian bs)) :=
    (digitsValue_bytes h 0).trans (digitsValue_formatInt (by decide) (by decide) 16 _).symm
  have hsame : (bs.map hexByte).flatten.length = (formatInt 16 16 (bigEndian bs)).length :=
    hlength.trans (length_formatInt (by decide) (by decide) hlt).symm
  exact (eq_of_digitsValue (by decide) hwritten (writtenDigits_formatInt (by decide) 16 _) hsame
    hvalue).1

/-! ## 5. What the writers write -/

/-- The eight bytes of a word, the last one first. -/
def leBytes (mem : Bytes) (a : Nat) : List Nat := (List.range 8).map fun t => (mem (a + 7 - t)).val

/-- The little endian word at an address. -/
def leWord (mem : Bytes) (a : Nat) : Nat := bigEndian (leBytes mem a)

theorem leBytes_lt (mem : Bytes) (a : Nat) : ∀ b ∈ leBytes mem a, b < 256 := by
  intro b hb
  obtain ⟨t, -, rfl⟩ := List.mem_map.mp hb
  exact (mem (a + 7 - t)).isLt

theorem leWord_lt (mem : Bytes) (a : Nat) : leWord mem a < 2 ^ 64 := by
  have hlt := bigEndian_lt (leBytes_lt mem a)
  have hlen : (leBytes mem a).length = 8 := by simp [leBytes]
  rw [hlen] at hlt
  exact hlt

/-- The pairs of words of a region, for the word at each address. -/
def wordPairs (word : Nat → Nat) (start len : Nat) : List (Nat × Nat) :=
  (List.range (len / 16)).map fun k => (word (start + 16 * k), word (start + 16 * k + 8))

theorem getD_readMem {mem : Bytes} {addr len i : Nat} (h : i < len) (rest : List Nat) :
    (readMem mem addr len ++ rest).getD i 0 = (mem (addr + i)).val := by
  have hi : i < (readMem mem addr len).length := by
    rw [readMem, List.length_map, List.length_range]
    exact h
  rw [List.getD_eq_getElem?_getD, List.getElem?_append_left hi, List.getElem?_eq_getElem hi]
  simp [readMem]

/-- A line of the dump of a region that stands at the start of the buffer. -/
theorem blockLine_eq {mem : Bytes} {addr len k : Nat} (h : 16 * k + 16 ≤ len) (rest : List Nat) :
    blockLine (readMem mem addr len ++ rest) (16 * k) =
      pairLine (leWord mem (addr + 16 * k), leWord mem (addr + 16 * k + 8)) := by
  have hbyte : ∀ t < 16, (readMem mem addr len ++ rest).getD (16 * k + 15 - t) 0 =
      (mem (addr + (16 * k + 15 - t))).val := fun t ht => getD_readMem (by omega) rest
  have hsplit : (List.range 16).map (fun t => hexByte ((readMem mem addr len ++ rest).getD
      (16 * k + 15 - t) 0)) =
      (leBytes mem (addr + 16 * k + 8)).map hexByte ++ (leBytes mem (addr + 16 * k)).map hexByte := by
    rw [show List.range 16 = List.range 8 ++ (List.range 8).map (8 + ·) from rfl, List.map_append,
      List.map_map, leBytes, leBytes, List.map_map, List.map_map]
    refine congrArg₂ (· ++ ·) (List.map_congr_left fun t ht => ?_) (List.map_congr_left fun t ht => ?_)
    · have ht := List.mem_range.mp ht
      simp only [Function.comp]
      rw [hbyte t (by omega), show addr + (16 * k + 15 - t) = addr + 16 * k + 8 + 7 - t by omega]
    · have ht := List.mem_range.mp ht
      simp only [Function.comp]
      rw [hbyte (8 + t) (by omega), show addr + (16 * k + 15 - (8 + t)) = addr + 16 * k + 7 - t by omega]
  have hlen : ∀ a, (leBytes mem a).length = 8 := fun a => by simp [leBytes]
  rw [blockLine, hsplit, List.flatten_append, hexBytes_eq (hlen _) (leBytes_lt mem _),
    hexBytes_eq (hlen _) (leBytes_lt mem _)]
  rfl

/-- **The dump of a region**, from a buffer that starts with it. -/
theorem dump_eq (mem : Bytes) (addr len : Nat) (rest : List Nat) :
    dump (readMem mem addr len ++ rest) len = (wordPairs (leWord mem) addr len).map pairLine := by
  rw [dump, wordPairs, List.map_map]
  refine List.map_congr_left fun k hk => ?_
  have hk := List.mem_range.mp hk
  exact blockLine_eq (by omega) rest

theorem addrDiff_eq {a b : Nat} (hb : b ≤ a) (ha : a < 2 ^ 64) : addrDiff a b = a - b := by
  unfold addrDiff
  omega

/-- The pairs of words of several regions. -/
def sectionPairs (word : Nat → Nat) (sections : List (Nat × Nat)) : List (Nat × Nat) :=
  (sections.map fun d => wordPairs word d.1 (d.2 - d.1)).flatten

/-- The sections, if none is longer than the buffer. -/
theorem stopSections_eq (mem : Bytes) (buf : List Nat) {sections : List (Nat × Nat)}
    (h : ∀ d ∈ sections, d.1 ≤ d.2 ∧ d.2 < 2 ^ 64 ∧ (d.2 - d.1) % 16 = 0 ∧ d.2 - d.1 ≤ buf.length) :
    stopSections mem buf sections = .ok ((sectionPairs (leWord mem) sections).map pairLine) := by
  induction sections generalizing buf with
  | nil => rfl
  | cons d sections ih =>
      obtain ⟨s, e⟩ := d
      obtain ⟨hle, hlt, hmod, hfit⟩ : s ≤ e ∧ e < 2 ^ 64 ∧ (e - s) % 16 = 0 ∧ e - s ≤ buf.length :=
        h (s, e) List.mem_cons_self
      have hbuf : (readMem mem s (e - s) ++ buf.drop (e - s)).length = buf.length := by
        have hr : (readMem mem s (e - s)).length = e - s := by simp [readMem]
        rw [List.length_append, hr, List.length_drop]
        omega
      have hrest : ∀ d ∈ sections, d.1 ≤ d.2 ∧ d.2 < 2 ^ 64 ∧ (d.2 - d.1) % 16 = 0 ∧
          d.2 - d.1 ≤ (readMem mem s (e - s) ++ buf.drop (e - s)).length := by
        rw [hbuf]
        exact fun d hd => h d (List.mem_cons_of_mem _ hd)
      have hcons : sectionPairs (leWord mem) ((s, e) :: sections) =
          wordPairs (leWord mem) s (e - s) ++ sectionPairs (leWord mem) sections := rfl
      rw [stopSections, addrDiff_eq hle hlt, if_neg (by omega), if_neg (by omega)]
      dsimp only
      rw [ih _ hrest, dump_eq, hcons, List.map_append]
      rfl

/-- **The file of the simulator**: the signature, then all data sections. -/
theorem stop_eq {h : Htif} {mem : Bytes} (hpos : h.sigLen ≠ 0) (hmod : h.sigLen % 16 = 0)
    (hdata : ∀ d ∈ h.dataAddrs, d.1 ≤ d.2 ∧ d.2 < 2 ^ 64 ∧ (d.2 - d.1) % 16 = 0 ∧
      d.2 - d.1 ≤ h.sigLen) :
    stop h mem = .ok ((wordPairs (leWord mem) h.sigAddr h.sigLen ++
      sectionPairs (leWord mem) h.dataAddrs).map pairLine).flatten := by
  have hbuf : (readMem mem h.sigAddr h.sigLen).length = h.sigLen := by simp [readMem]
  have hsig := dump_eq mem h.sigAddr h.sigLen []
  rw [List.append_nil] at hsig
  have hsections := stopSections_eq mem (readMem mem h.sigAddr h.sigLen)
    fun d hd => by rw [hbuf]; exact hdata d hd
  rw [stop, if_neg hpos, if_neg (by omega)]
  dsimp only
  rw [hsections, hsig, List.map_append]
  rfl

/-- The words of a region of the dictionary. -/
def Present (memory : Words) (start stop : Nat) : Prop :=
  ∀ a, start ≤ a → a < stop → 8 ∣ a → ∃ v < 2 ^ 64, memory a = some v

/-- The word at an address of the dictionary, if it has one. -/
def rtlWord (memory : Words) (a : Nat) : Nat := (memory a).getD 0

theorem Present.eq_rtlWord {memory : Words} {start stop a : Nat} (h : Present memory start stop)
    (hlo : start ≤ a) (hhi : a < stop) (ha : 8 ∣ a) :
    memory a = some (rtlWord memory a) ∧ rtlWord memory a < 2 ^ 64 := by
  obtain ⟨v, hv, hm⟩ := h a hlo hhi ha
  unfold rtlWord
  rw [hm]
  exact ⟨rfl, hv⟩

/-- The words of a region are words. -/
theorem Present.wordPairs_lt {memory : Words} {start stop : Nat} (hs : 16 ∣ start)
    (h : Present memory start stop) :
    ∀ p ∈ wordPairs (rtlWord memory) start (stop - start), p.1 < 2 ^ 64 ∧ p.2 < 2 ^ 64 := by
  intro p hp
  obtain ⟨k, hk, rfl⟩ := List.mem_map.mp hp
  have hk := List.mem_range.mp hk
  exact ⟨(h.eq_rtlWord (by omega) (by omega) (by omega)).2,
    (h.eq_rtlWord (by omega) (by omega) (by omega)).2⟩

theorem dumpWords_eq {memory : Words} {start stop : Nat} (hs : 16 ∣ start) (he : 16 ∣ stop)
    (h : Present memory start stop) :
    dumpWords memory start stop =
      .ok ((wordPairs (rtlWord memory) start (stop - start)).map pairLine) := by
  have hcount : (stop - start + 15) / 16 = (stop - start) / 16 := by omega
  rw [dumpWords, hcount, wordPairs, List.map_map]
  refine Except.mapM_eq fun k hk => ?_
  have hk := List.mem_range.mp hk
  have hlo := (h.eq_rtlWord (a := start + 16 * k) (by omega) (by omega) (by omega)).1
  have hhi := (h.eq_rtlWord (a := start + 16 * k + 8) (by omega) (by omega) (by omega)).1
  rw [wordAt, wordAt, hlo, hhi]
  rfl

/-- **The file of the RTL host** for any list of sections. -/
theorem saveSignature_eq {memory : Words} {start stop : Nat} {sections : List (Nat × Nat)}
    (hs : 16 ∣ start) (ht : 16 ∣ stop) (h : Present memory start stop)
    (hdata : ∀ d ∈ sections, 16 ∣ d.1 ∧ 16 ∣ d.2 ∧ Present memory d.1 d.2) :
    saveSignature memory start stop sections = .ok ((wordPairs (rtlWord memory) start (stop - start) ++
      sectionPairs (rtlWord memory) sections).map pairLine).flatten := by
  have hsections : sections.mapM (fun d => dumpWords memory d.1 d.2) =
      .ok (sections.map fun d => (wordPairs (rtlWord memory) d.1 (d.2 - d.1)).map pairLine) :=
    Except.mapM_eq fun d hd => dumpWords_eq (hdata d hd).1 (hdata d hd).2.1 (hdata d hd).2.2
  rw [saveSignature, dumpWords_eq hs ht h, hsections, sectionPairs, List.map_append, List.map_flatten,
    List.map_map]
  rfl

/-- **The file that a test leaves**: the signature, and no data section. -/
theorem finishTest_eq {symbols : Symbols} {memory : Words} {start stop : Nat}
    (hb : symbols.get? beginSignature = some start) (he : symbols.get? endSignature = some stop)
    (hs : 16 ∣ start) (ht : 16 ∣ stop) (h : Present memory start stop) :
    finishTest symbols memory =
      .ok ((wordPairs (rtlWord memory) start (stop - start)).map pairLine).flatten := by
  rw [finishTest, symbol, hb, symbol, he]
  have hnone : ∀ d ∈ ([] : List (Nat × Nat)), 16 ∣ d.1 ∧ 16 ∣ d.2 ∧ Present memory d.1 d.2 :=
    fun d hd => (nomatch hd)
  have hsave := saveSignature_eq hs ht h hnone
  rw [sectionPairs, List.map_nil, List.flatten_nil, List.append_nil] at hsave
  exact hsave

end Difuzz.Signature
