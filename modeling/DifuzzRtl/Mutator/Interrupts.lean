/-
  File:      DifuzzRtl/Mutator/Interrupts.lean
  Subject:   The file with the interrupts of a test (`rvPreProcessor.process`, the `.rtl.intr` file).

  `process` keeps one value for each machine word: a line that loads an address is assembled to two
  words, so a zero follows its value. Such a line is recognised by the letters `la` anywhere in it.

  * `mnemonic`, `lineAddr` -- the instruction of a line, and the address it is assembled at.
  * `rtlIntr`, `attached` -- the file that `process` writes, and the file with every value at the
    address of its instruction.
  * `rtlIntr_iff` -- they are the same exactly if no other line with these letters stands before an
    instruction with an interrupt.
-/
import DifuzzRtl.Mutator.Links

namespace Difuzz.Mutator

open Text

/-! ## 1. Lines and addresses -/

/-- The instruction of a line: behind its label, if there is one, and up to a blank. -/
def mnemonic (line : Text) : Text :=
  let body := if ':' ∈ line then (line.dropWhile (· ≠ ':')).tail else line
  (body.dropWhile isSpace).takeWhile fun c => !isSpace c

/-- The bytes that a line is assembled to. -/
def lineBytes (line : Text) : Nat := if mnemonic line = ['l', 'a'] then 8 else 4

/-- The address of the first machine word of a line. -/
def lineAddr (fuzzMain : Nat) (lines : List Text) (p : Nat) : Nat :=
  fuzzMain + ((lines.take p).map lineBytes).sum

/-- The lines of the main part. -/
def SimInput.mainLines (s : SimInput) : List Text := (s.words.map (·.retInsts)).flatten

/-! ## 2. The file -/

/-- `"{:016x}:{:04b}\n"`. -/
def intrLine (addr : Nat) (i : Int) : Text :=
  formatInt 16 16 addr ++ [':'] ++ formatInt 2 4 i ++ ['\n']

/-- The lines for the values that are not zero. -/
def intrLines (addr : Nat → Nat) (ints : List Int) : List Text :=
  ints.zipIdx.filterMap fun e => if e.1 ≠ 0 then some (intrLine (addr e.2) e.1) else none

/-- **The file that `process` writes**, from the values that it has for the machine words. -/
def rtlIntr (fuzzMain : Nat) (ints : List Int) : Text :=
  (intrLines (fun i => fuzzMain + 4 * i) ints).flatten

/-- **The values at the addresses of their instructions**, and nothing else. -/
def attached (fuzzMain : Nat) (lines : List Text) (ints : List Int) : Text :=
  (intrLines (lineAddr fuzzMain lines) ints).flatten

/-! ## 3. Addresses -/

/-- The bytes that `process` counts for a line. -/
def countedBytes (line : Text) : Nat := if contains ['l', 'a'] line then 8 else 4

def countedAddr (fuzzMain : Nat) (lines : List Text) (p : Nat) : Nat :=
  fuzzMain + ((lines.take p).map countedBytes).sum

theorem countedAddr_succ (fuzzMain : Nat) (line : Text) (lines : List Text) (p : Nat) :
    countedAddr fuzzMain (line :: lines) (p + 1) =
      countedAddr (fuzzMain + countedBytes line) lines p := by
  unfold countedAddr
  rw [List.take_succ_cons, List.map_cons, List.sum_cons, Nat.add_assoc]

theorem mnemonic_infix (line : Text) : mnemonic line <:+: line := by
  have hbody : (if ':' ∈ line then (line.dropWhile (· ≠ ':')).tail else line) <:+ line := by
    split
    · exact (List.tail_suffix _).trans (List.dropWhile_suffix _)
    · exact List.suffix_refl line
  exact (List.takeWhile_prefix _).isInfix.trans
    ((List.dropWhile_suffix _).trans hbody).isInfix

/-- No line is counted with less than it has. -/
theorem lineBytes_le (line : Text) : lineBytes line ≤ countedBytes line := by
  unfold lineBytes countedBytes
  split
  · rename_i hla
    have hin : contains ['l', 'a'] line = true := by
      rw [contains_iff, ← hla]
      exact mnemonic_infix line
    rw [if_pos hin]
  · split <;> decide

theorem lineBytes_eq_iff (line : Text) : lineBytes line = countedBytes line ↔
    (contains ['l', 'a'] line = true → mnemonic line = ['l', 'a']) := by
  have hle := lineBytes_le line
  unfold lineBytes countedBytes at hle ⊢
  by_cases hin : contains ['l', 'a'] line = true
  · by_cases hla : mnemonic line = ['l', 'a']
    · simp [hin, hla]
    · simp [hin, hla]
  · by_cases hla : mnemonic line = ['l', 'a']
    · simp [hin, hla] at hle
    · simp [hin, hla]

theorem sum_le {l : List Text} {f g : Text → Nat} (h : ∀ x, f x ≤ g x) :
    (l.map f).sum ≤ (l.map g).sum := by
  induction l with
  | nil => exact Nat.le_refl _
  | cons x l ih =>
      rw [List.map_cons, List.map_cons, List.sum_cons, List.sum_cons]
      exact Nat.add_le_add (h x) ih

/-- Two sums whose terms compare agree only if the terms do. -/
theorem sum_eq_iff {l : List Text} {f g : Text → Nat} (h : ∀ x, f x ≤ g x) :
    (l.map f).sum = (l.map g).sum ↔ ∀ x ∈ l, f x = g x := by
  induction l with
  | nil => simp
  | cons x l ih =>
      have hx := h x
      have hl := sum_le (l := l) h
      rw [List.map_cons, List.map_cons, List.sum_cons, List.sum_cons, List.forall_mem_cons, ← ih]
      omega

/-- **An address is counted right** if all lines before it are. -/
theorem countedAddr_eq_iff (fuzzMain : Nat) (lines : List Text) (p : Nat) :
    countedAddr fuzzMain lines p = lineAddr fuzzMain lines p ↔
      ∀ line ∈ lines.take p, contains ['l', 'a'] line = true → mnemonic line = ['l', 'a'] := by
  unfold countedAddr lineAddr
  rw [Nat.add_left_cancel_iff, eq_comm, sum_eq_iff lineBytes_le]
  exact forall₂_congr fun line _ => lineBytes_eq_iff line

/-! ## 4. Lines of the file -/

theorem intrLines_cons (addr : Nat → Nat) (i : Int) (ints : List Int) :
    intrLines addr (i :: ints) =
      (if i ≠ 0 then [intrLine (addr 0) i] else []) ++ intrLines (fun p => addr (p + 1)) ints := by
  unfold intrLines
  rw [List.zipIdx_cons, List.filterMap_cons, List.zipIdx_succ, List.filterMap_map]
  by_cases hi : i = 0
  · rw [if_neg (not_not.mpr hi), if_neg (not_not.mpr hi)]
    rfl
  · rw [if_pos hi, if_pos hi]
    rfl

/-- **The values of the machine words** give the lines of the instructions, at counted addresses. -/
theorem intrLines_expandInts {lines : List Text} {ints values : List Int}
    (h : expandInts lines ints = .ok values) (hlen : ints.length = lines.length) (fuzzMain : Nat) :
    intrLines (fun i => fuzzMain + 4 * i) values = intrLines (countedAddr fuzzMain lines) ints := by
  induction lines generalizing ints values fuzzMain with
  | nil =>
      obtain rfl := List.length_eq_zero_iff.mp hlen
      rw [expandInts] at h
      cases h
      rfl
  | cons line lines ih =>
      cases ints with
      | nil => cases hlen
      | cons i ints =>
          rw [expandInts] at h
          cases hrest : expandInts lines ints with
          | error e =>
              rw [hrest] at h
              cases h
          | ok rest =>
              rw [hrest] at h
              have ih := ih hrest (Nat.succ.inj hlen) (fuzzMain + countedBytes line)
              have haddr : (fun p => countedAddr fuzzMain (line :: lines) (p + 1)) =
                  countedAddr (fuzzMain + countedBytes line) lines :=
                funext (countedAddr_succ fuzzMain line lines)
              rw [intrLines_cons _ i ints, haddr, ← ih]
              unfold countedBytes
              by_cases hin : contains ['l', 'a'] line = true
              · -- the zero of the second word gives no line
                obtain rfl : i :: 0 :: rest = values := by simpa [hin] using h
                have hshift : (fun p => fuzzMain + 4 * (p + 1 + 1)) =
                    fun p => fuzzMain + 8 + 4 * p := funext fun p => by omega
                rw [intrLines_cons, intrLines_cons, if_pos hin, hshift]
                rfl
              · obtain rfl : i :: rest = values := by simpa [hin] using h
                have hshift : (fun p => fuzzMain + 4 * (p + 1)) =
                    fun p => fuzzMain + 4 + 4 * p := funext fun p => by omega
                rw [intrLines_cons, if_neg hin, hshift]
                rfl

/-- The address of a line of the file can be read off it. -/
theorem intrLine_inj {a b : Nat} {i : Int} (h : intrLine a i = intrLine b i) : a = b := by
  have hcut : ∀ n : Nat, (intrLine n i).takeWhile (· != ':') = formatInt 16 16 n := by
    intro n
    have hcolon : ':' ∉ formatInt 16 16 n :=
      (allDigits_formatInt (by decide) (by decide) 16 n).not_mem (by decide)
    unfold intrLine
    rw [List.append_assoc, List.append_assoc, List.singleton_append]
    exact takeWhile_mark hcolon
  have hvalue := congrArg (digitsValue 16 0) ((hcut a).symm.trans ((congrArg _ h).trans (hcut b)))
  rw [digitsValue_formatInt (by decide) (by decide), digitsValue_formatInt (by decide) (by decide)]
    at hvalue
  exact Option.some.inj hvalue

theorem AllDigits.oneLine {b : Nat} {t : Text} (h : AllDigits b t) : OneLine t :=
  ⟨h.not_mem (digitValue_space (by decide)), h.not_mem (digitValue_space (by decide))⟩

theorem isLine_intrLine (addr : Nat) (i : Int) : IsLine (intrLine addr i) := by
  have haddr : OneLine (formatInt 16 16 addr) :=
    AllDigits.oneLine (allDigits_formatInt (by decide) (by decide) 16 addr)
  have hvalue : OneLine (formatInt 2 4 i) := by
    cases i with
    | ofNat n => exact AllDigits.oneLine (allDigits_formatInt (by decide) (by decide) 4 n)
    | negSucc n =>
        have hdigits : AllDigits 2 (List.replicate (4 - 1 - (digits 2 (n + 1)).length) '0' ++
            digits 2 (n + 1)) :=
          (allDigits_zeros (by decide) _).append (allDigits_digits (by decide) (by decide))
        exact OneLine.append (t := ['-']) (by decide) (AllDigits.oneLine hdigits)
  exact ⟨_, (haddr.append (by decide)).append hvalue, rfl⟩

theorem isLine_of_mem {addr : Nat → Nat} {ints : List Int} :
    ∀ l ∈ intrLines addr ints, IsLine l := by
  intro l hl
  obtain ⟨e, _, he⟩ := List.mem_filterMap.mp hl
  split at he
  · cases he
    exact isLine_intrLine _ _
  · cases he

/-- **Two lists of addresses give the same lines** if they agree where there is an interrupt. -/
theorem intrLines_eq_iff {a b : Nat → Nat} {ints : List Int} :
    intrLines a ints = intrLines b ints ↔ ∀ p i, ints[p]? = some i → i ≠ 0 → a p = b p := by
  induction ints generalizing a b with
  | nil => simp [intrLines]
  | cons i ints ih =>
      rw [intrLines_cons, intrLines_cons]
      by_cases hi : i = 0
      · simp only [hi, ne_eq, not_true_eq_false, if_false, List.nil_append]
        rw [ih]
        constructor
        · intro h p j hp hj
          cases p with
          | zero => exact absurd (Option.some.inj hp).symm hj
          | succ p => exact h p j hp hj
        · exact fun h p j hp hj => h (p + 1) j hp hj
      · simp only [if_pos hi, List.singleton_append]
        constructor
        · intro h p j hp hj
          obtain ⟨hline, hrest⟩ := List.cons.inj h
          cases p with
          | zero => exact intrLine_inj hline
          | succ p => exact ih.mp hrest p j hp hj
        · intro h
          rw [h 0 i rfl hi, ih.mpr fun p j hp hj => h (p + 1) j hp hj]

/-- The same for the files. -/
theorem flatten_intrLines_eq_iff {a b : Nat → Nat} {ints : List Int} :
    (intrLines a ints).flatten = (intrLines b ints).flatten ↔
      ∀ p i, ints[p]? = some i → i ≠ 0 → a p = b p := by
  rw [← intrLines_eq_iff]
  constructor
  · intro h
    rw [← readlines_flatten isLine_of_mem, h, readlines_flatten isLine_of_mem]
  · exact congrArg List.flatten

/-! ## 5. Inputs -/

section Input

variable {s : SimInput}

omit s in
theorem partInsts_eq {part : Part} {ws : List Word} (h : ∀ w ∈ ws, w.populated = true) :
    SimInput.partInsts part ws =
      .ok ((ws.map (·.retInsts)).flatten ++ [part.text ++ intText ws.length ++ [':']]) := by
  have hwords : ws.mapM Word.getInsts = .ok (ws.map (·.retInsts)) :=
    Except.mapM_eq fun w hw => if_pos (h w hw)
  unfold SimInput.partInsts
  rw [hwords]
  rfl

theorem getInsts_eq (h : ∀ w ∈ s.words, w.populated = true) :
    s.getInsts = .ok (s.mainLines ++ [Part.mainPart.text ++ intText s.words.length ++ [':']]) :=
  partInsts_eq h

/-- The values that `process` has for the machine words. -/
theorem process_values (h : ∀ w ∈ s.words, w.populated = true) {data : List Int}
    {template asm : List Text} {sections : Nat} {values : List Int}
    (hp : process s data template sections = .ok (asm, values)) :
    expandInts s.mainLines s.ints = .ok values := by
  unfold process at hp
  rw [getInsts_eq h] at hp
  dsimp only at hp
  split at hp
  · cases hp
  split at hp
  · cases hp
  obtain ⟨prefixInsts, _, hp⟩ := Except.bind_ok.mp hp
  obtain ⟨insts, hinsts, hp⟩ := Except.bind_ok.mp hp
  obtain ⟨suffixInsts, _, hp⟩ := Except.bind_ok.mp hp
  obtain ⟨ints, hints, hp⟩ := Except.bind_ok.mp hp
  obtain ⟨blocks, _, hout⟩ := Except.bind_ok.mp hp
  obtain rfl := Except.ok.inj hinsts
  obtain rfl : ints = values := congrArg Prod.snd (Except.ok.inj hout)
  rw [List.dropLast_concat] at hints
  exact hints

/-- **The interrupts are written where they belong** exactly if every line with the letters `la`
    before an instruction with an interrupt is one that loads an address. -/
theorem rtlIntr_iff (h : ∀ w ∈ s.words, w.populated = true)
    (hints : s.ints.length = s.mainLines.length) (fuzzMain : Nat) :
    ∃ values, expandInts s.mainLines s.ints = .ok values ∧
      (∀ data template sections asm values',
        process s data template sections = .ok (asm, values') → values' = values) ∧
      (rtlIntr fuzzMain values = attached fuzzMain s.mainLines s.ints ↔
        ∀ p i, s.ints[p]? = some i → i ≠ 0 → ∀ line ∈ s.mainLines.take p,
          contains ['l', 'a'] line = true → mnemonic line = ['l', 'a']) := by
  obtain ⟨values, hvalues⟩ := expandInts_ok (Nat.le_of_eq hints.symm)
  refine ⟨values, hvalues, fun data template sections asm values' hp => ?_, ?_⟩
  · exact Except.ok.inj ((process_values h hp).symm.trans hvalues)
  · unfold rtlIntr attached
    rw [intrLines_expandInts hvalues hints, flatten_intrLines_eq_iff]
    exact forall₂_congr fun p i => forall₂_congr fun _ _ => countedAddr_eq_iff ..

end Input

namespace Demo

/-- A test of two words, an instruction before one with an interrupt. -/
def interrupted (first : String) : SimInput where
  prefixWords := []
  words :=
    [{ label := 0, insts := [first.toList], populated := true,
       retInsts := [labelCol .mainPart 0 ++ ljust 42 first.toList] },
     { label := 1, insts := ["add a1, a1, a1".toList], populated := true,
       retInsts := [labelCol .mainPart 1 ++ ljust 42 "add a1, a1, a1".toList] }]
  suffixWords := []
  ints := [0, 4]
  dataSeed := 0
  template := .pM

end Demo

/-- A `la` is two machine words long, and the interrupt of the next instruction is moved. -/
theorem rtlIntr_la :
    ∃ values, expandInts (Demo.interrupted "la a0, d_0_1").mainLines [0, 4] = .ok values ∧
      rtlIntr 0x80000100 values =
        attached 0x80000100 (Demo.interrupted "la a0, d_0_1").mainLines [0, 4] := by
  obtain ⟨values, hvalues, _, hiff⟩ :=
    rtlIntr_iff (s := Demo.interrupted "la a0, d_0_1") (by decide) (by decide) 0x80000100
  refine ⟨values, hvalues, hiff.mpr fun p i hp hi => ?_⟩
  match p with
  | 0 => exact absurd (Option.some.inj hp).symm hi
  | 1 => decide +kernel
  | p + 2 => cases hp

/-- An `fclass.s` is one word long, but the interrupt of the next instruction is moved too. -/
theorem rtlIntr_fclass :
    ∃ asm values, process (Demo.interrupted "fclass.s a0, ft0") [0, 0, 0, 0, 0, 0] [] 6 =
        .ok (asm, values) ∧
      rtlIntr 0x80000100 values = "0000000080000108:0100\n".toList ∧
      attached 0x80000100 (Demo.interrupted "fclass.s a0, ft0").mainLines [0, 4] =
        "0000000080000104:0100\n".toList :=
  ⟨[], [0, 0, 4], by decide +kernel, by decide +kernel, by decide +kernel⟩

end Difuzz.Mutator
