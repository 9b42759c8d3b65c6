/-
  File:      DifuzzRtl/Signature/Pins.lean
  Subject:   The interrupts of a test on their way from the file of `process` to the pins of the design
             (`rvRTLhost.run_test`, tile_adapter.py) and to the simulator (`write_isa_intr`).

  * `readIntr`, `writeIsaIntr` -- the two readers of the file.
  * `interruptHandler`, `assertIntr` -- at an instruction with an interrupt the pins are set, and they
    stay so until the next one.
  * `assertedAt` -- the interrupt of the machine word at an address; `readIntr_rtlIntr` -- it is the one
    that the host has.
  * `pins_follow` -- the pins show the interrupt of the last such instruction.
  * `isa_intr` -- the simulator gets the same interrupt, if there is one only.
-/
import DifuzzRtl.Mutator.Interrupts
import DifuzzRtl.Signature.Checker

namespace Difuzz.Signature

open Text Mutator

/-! ## 1. Readers of the file -/

/-- `int(t, 2)`. -/
def binInt (t : Text) : Except Exn Int :=
  match pyInt 2 t with
  | some v => .ok v
  | none => .error .value

/-- An address and a value, of a line that is split at the colon. -/
def intrPair (line : Text) : Except Exn (Int × Int) :=
  match split [':'] line with
  | addr :: value :: _ => do
      let v ← binInt value
      return (← hexInt addr, v)
  | _ => .error .index

/-- `ints[int(pair[0], 16)] = int(pair[1], 2)`. -/
def setIntr (ints : Dict Int Int) (line : Text) : Except Exn (Dict Int Int) := do
  let pair ← intrPair line
  return ints.set pair.1 pair.2

/-- **The interrupts that `run_test` reads.** -/
def readIntr (file : Text) : Except Exn (Dict Int Int) :=
  (readlines file).foldlM setIntr .empty

/-- `write_isa_intr`: there has to be one interrupt, and it is taken at `epc`. -/
def writeIsaIntr (file : Text) (epc : Nat) : Except Exn Text :=
  match readlines file with
  | [line] =>
      match split [':'] line with
      | _ :: value :: _ => do return intrLine epc (← binInt value)
      | _ => .error .index
  | _ => .error .assertion

/-! ## 2. The pins -/

/-- `intPorts`. -/
structure IntPorts where
  seip : Bool
  meip : Bool
  msip : Bool
  mtip : Bool
  deriving DecidableEq, Repr

def intMeip : Int := 0x4
def intSeip : Int := 0x8
def intMtip : Int := 0x1
def intMsip : Int := 0x2

/-- A pin for each bit. -/
def portsOf (intr : Int) : IntPorts where
  seip := Int.land intr intSeip = intSeip
  meip := Int.land intr intMeip = intMeip
  msip := Int.land intr intMsip = intMsip
  mtip := Int.land intr intMtip = intMtip

/-- The interrupt that the adapter has asserted last, and the pins. -/
structure TileAdapter where
  intr : Int
  intPorts : IntPorts
  deriving DecidableEq, Repr

/-- `stop` leaves it like this. -/
def TileAdapter.stopped : TileAdapter := ⟨0, ⟨false, false, false, false⟩⟩

/-- `assert_intr`. -/
def TileAdapter.assertIntr (s : TileAdapter) (intr : Int) : TileAdapter :=
  if intr = s.intr then s else ⟨intr, portsOf intr⟩

/-- **A clock of `interrupt_handler`**, with the program counter when it is valid. -/
def interruptHandler (ints : Dict Int Int) (s : TileAdapter) : Option Nat → TileAdapter
  | some pc =>
      match ints.get? pc with
      | some intr => s.assertIntr intr
      | none => s
  | none => s

/-! ## 3. What the host reads -/

/-- **The interrupt of the machine word at an address.** -/
def assertedAt (fuzzMain : Nat) (ints : List Int) (pc : Nat) : Option Int :=
  if fuzzMain ≤ pc ∧ (pc - fuzzMain) % 4 = 0 then ints[(pc - fuzzMain) / 4]?.filter (· ≠ 0) else none

theorem assertedAt_cons (fuzzMain : Nat) (i : Int) (ints : List Int) (pc : Nat) :
    assertedAt fuzzMain (i :: ints) pc =
      if pc = fuzzMain then (if i ≠ 0 then some i else none) else assertedAt (fuzzMain + 4) ints pc := by
  unfold assertedAt
  by_cases hpc : pc = fuzzMain
  · subst hpc
    by_cases hi : i = 0
    · simp [hi, Option.filter]
    · simp [hi, Option.filter]
  · rw [if_neg hpc]
    by_cases hle : fuzzMain + 4 ≤ pc ∧ (pc - (fuzzMain + 4)) % 4 = 0
    · have hidx : (pc - fuzzMain) / 4 = (pc - (fuzzMain + 4)) / 4 + 1 := by omega
      rw [if_pos hle, if_pos ⟨by omega, by omega⟩, hidx, List.getElem?_cons_succ]
    · rw [if_neg hle, if_neg fun h => hle ⟨by omega, by omega⟩]

section Lines

variable {i : Int} {ints : List Int}

theorem split_intrLine (addr n : Nat) :
    split [':'] (intrLine addr n) = [formatInt 16 16 addr, formatInt 2 4 n ++ ['\n']] := by
  have haddr : ':' ∉ formatInt 16 16 addr :=
    (allDigits_formatInt (by decide) (by decide) 16 addr).not_mem (by decide)
  have hvalue : ':' ∉ formatInt 2 4 n ++ ['\n'] := by
    rw [List.mem_append]
    exact not_or.mpr
      ⟨(allDigits_formatInt (by decide) (by decide) 4 n).not_mem (by decide), by decide⟩
  have hrest : split [':'] (formatInt 2 4 n ++ ['\n']) = [formatInt 2 4 n ++ ['\n']] :=
    split_of_not_mem (x := []) (y := []) hvalue
  have h := split_append_sep (x := []) (y := []) (u := formatInt 2 4 n ++ ['\n'])
    List.not_mem_nil haddr
  unfold intrLine
  rw [List.append_assoc, List.append_assoc]
  exact h.trans (congrArg _ hrest)

theorem binInt_formatInt (n : Nat) : binInt (formatInt 2 4 n ++ ['\n']) = .ok (n : Int) := by
  unfold binInt
  rw [pyInt_formatInt (by decide) (by decide) 4 n (by decide)]

/-- A line is read as it was written. -/
theorem intrPair_intrLine (hi : 0 ≤ i) (addr : Nat) :
    intrPair (intrLine addr i) = .ok ((addr : Int), i) := by
  obtain ⟨n, rfl⟩ := Int.eq_ofNat_of_zero_le hi
  have haddr : hexInt (formatInt 16 16 addr) = .ok (addr : Int) := by
    unfold hexInt
    rw [pyInt_formatInt_nil (by decide) (by decide) 16 addr]
  unfold intrPair
  rw [split_intrLine]
  simp only [binInt_formatInt, haddr]
  rfl

/-- The lines for the values from an address on, read into a table. -/
theorem foldlM_setIntr (hpos : ∀ i ∈ ints, 0 ≤ i) (fuzzMain : Nat) (d : Dict Int Int) :
    ∃ d', (intrLines (fun p => fuzzMain + 4 * p) ints).foldlM setIntr d = .ok d' ∧
      ∀ pc : Nat, d'.get? pc = (assertedAt fuzzMain ints pc).or (d.get? pc) := by
  induction ints generalizing fuzzMain d with
  | nil => exact ⟨d, rfl, fun pc => by simp [assertedAt]⟩
  | cons i ints ih =>
      have hshift : (fun p => fuzzMain + 4 * (p + 1)) = fun p => fuzzMain + 4 + 4 * p :=
        funext fun p => by omega
      obtain ⟨d', hd', hget⟩ := ih (fun j hj => hpos j (List.mem_cons_of_mem _ hj)) (fuzzMain + 4)
        (if i ≠ 0 then d.set fuzzMain i else d)
      refine ⟨d', ?_, fun pc => ?_⟩
      · rw [intrLines_cons, hshift]
        by_cases hi : i = 0
        · rw [if_neg (not_not.mpr hi)] at hd' ⊢
          exact hd'
        · have hset : setIntr d (intrLine (fuzzMain + 4 * 0) i) = .ok (d.set fuzzMain i) := by
            unfold setIntr
            rw [intrPair_intrLine (hpos i List.mem_cons_self)]
            rfl
          rw [if_pos hi] at hd' ⊢
          rw [List.singleton_append, List.foldlM_cons, hset]
          exact hd'
      · rw [hget, assertedAt_cons]
        by_cases hpc : pc = fuzzMain
        · subst hpc
          have hnone : assertedAt (pc + 4) ints pc = none := if_neg (by omega)
          rw [hnone, if_pos rfl]
          by_cases hi : i = 0
          · simp [hi]
          · simp [hi]
        · have hne : (pc : Int) ≠ fuzzMain := fun h => hpc (Int.ofNat.inj h)
          rw [if_neg hpc]
          split
          · rw [Dict.get?_set, if_neg hne]
          · rfl

/-- **The host has the interrupts of the machine words**, and no others. -/
theorem readIntr_rtlIntr (hpos : ∀ i ∈ ints, 0 ≤ i) (fuzzMain : Nat) :
    ∃ d, readIntr (rtlIntr fuzzMain ints) = .ok d ∧
      ∀ pc : Nat, d.get? pc = assertedAt fuzzMain ints pc := by
  obtain ⟨d, hd, hget⟩ := foldlM_setIntr hpos fuzzMain .empty
  refine ⟨d, ?_, fun pc => (hget pc).trans Option.or_none⟩
  unfold readIntr rtlIntr
  rwa [readlines_flatten isLine_of_mem]

/-- The lines show the values that are not zero. -/
theorem intrLines_values (addr : Nat → Nat) : ∃ addrs : List Nat,
    addrs.length = (ints.filter (· ≠ 0)).length ∧
    intrLines addr ints = List.zipWith intrLine addrs (ints.filter (· ≠ 0)) := by
  induction ints generalizing addr with
  | nil => exact ⟨[], rfl, rfl⟩
  | cons i ints ih =>
      obtain ⟨addrs, hlen, hlines⟩ := ih fun p => addr (p + 1)
      rw [intrLines_cons]
      by_cases hi : i = 0
      · rw [if_neg (not_not.mpr hi), List.filter_cons_of_neg (by simpa using hi)]
        exact ⟨addrs, hlen, hlines⟩
      · rw [if_pos hi, List.filter_cons_of_pos (by simpa using hi), hlines]
        exact ⟨addr 0 :: addrs, congrArg (· + 1) hlen, rfl⟩

end Lines

/-! ## 4. What reaches the design and the simulator -/

/-- The interrupt of the last valid program counter that has one. -/
def lastIntr (fuzzMain : Nat) (ints : List Int) (pcs : List (Option Nat)) : Int :=
  pcs.foldl (fun intr pc => (pc.bind (assertedAt fuzzMain ints)).getD intr) 0

theorem interruptHandler_ports (ints : Dict Int Int) (intr : Int) (pc : Option Nat) :
    interruptHandler ints ⟨intr, portsOf intr⟩ pc =
      let intr' := (pc.bind fun pc => ints.get? pc).getD intr
      ⟨intr', portsOf intr'⟩ := by
  cases pc with
  | none => rfl
  | some pc =>
      unfold interruptHandler
      simp only [Option.bind_some]
      cases ints.get? pc with
      | none => rfl
      | some intr' =>
          show TileAdapter.assertIntr _ intr' = ⟨intr', portsOf intr'⟩
          unfold TileAdapter.assertIntr
          split
          · rename_i he
            rw [show intr = intr' from he.symm]
          · rfl

theorem run_ports (ints : Dict Int Int) (intr : Int) (pcs : List (Option Nat)) :
    pcs.foldl (interruptHandler ints) ⟨intr, portsOf intr⟩ =
      let intr' := pcs.foldl (fun intr pc => (pc.bind fun pc => ints.get? pc).getD intr) intr
      ⟨intr', portsOf intr'⟩ := by
  induction pcs generalizing intr with
  | nil => rfl
  | cons pc pcs ih =>
      rw [List.foldl_cons, interruptHandler_ports]
      exact ih _

/-- **The pins follow the instructions.** The host reads the file of `process`, and on any sequence of
    program counters the pins are the bits of the interrupt of the last instruction that has one. -/
theorem pins_follow {fuzzMain : Nat} {ints : List Int} (hpos : ∀ i ∈ ints, 0 ≤ i)
    (pcs : List (Option Nat)) :
    ∃ d, readIntr (rtlIntr fuzzMain ints) = .ok d ∧
      pcs.foldl (interruptHandler d) .stopped =
        ⟨lastIntr fuzzMain ints pcs, portsOf (lastIntr fuzzMain ints pcs)⟩ := by
  obtain ⟨d, hd, hget⟩ := readIntr_rtlIntr hpos fuzzMain
  have hstopped : TileAdapter.stopped = ⟨0, portsOf 0⟩ := by decide +kernel
  have hat : (fun pc : Nat => d.get? pc) = assertedAt fuzzMain ints := funext hget
  refine ⟨d, hd, ?_⟩
  rw [hstopped, run_ports, hat]
  rfl

theorem pins_follow_external :
    ∃ d, readIntr (rtlIntr 0x80000100 [0, 4, 0]) = .ok d ∧
      [some 0x80000100, none, some 0x80000104, some 0x80000108].foldl (interruptHandler d) .stopped =
        ⟨4, ⟨false, true, false, false⟩⟩ := by
  obtain ⟨d, hd, hs⟩ := @pins_follow 0x80000100 [0, 4, 0] (by decide)
    [some 0x80000100, none, some 0x80000104, some 0x80000108]
  exact ⟨d, hd, hs.trans (by decide +kernel)⟩

/-- The value that is not zero, if there is one only. -/
def soleIntr (ints : List Int) : Option Int :=
  match ints.filter (· ≠ 0) with
  | [intr] => some intr
  | _ => none

/-- **The simulator gets the interrupt of the design**, at the instruction that it interrupts, and the
    assertion fails if there is not exactly one. -/
theorem isa_intr {fuzzMain : Nat} {ints : List Int} (hpos : ∀ i ∈ ints, 0 ≤ i) (epc : Nat) :
    writeIsaIntr (rtlIntr fuzzMain ints) epc =
      (soleIntr ints).elim (.error .assertion) fun intr => .ok (intrLine epc intr) := by
  obtain ⟨addrs, hlen, hlines⟩ := @intrLines_values ints fun p => fuzzMain + 4 * p
  have hfile : readlines (rtlIntr fuzzMain ints) =
      List.zipWith intrLine addrs (ints.filter (· ≠ 0)) := by
    unfold rtlIntr
    rw [readlines_flatten isLine_of_mem, hlines]
  unfold writeIsaIntr soleIntr
  rw [hfile]
  cases hvalues : ints.filter (· ≠ 0) with
  | nil =>
      rw [hvalues] at hlen
      rw [List.length_eq_zero_iff.mp hlen]
      rfl
  | cons intr rest =>
      rw [hvalues] at hlen
      cases addrs with
      | nil => cases hlen
      | cons addr addrs =>
          cases rest with
          | nil =>
              obtain rfl := List.length_eq_zero_iff.mp (Nat.succ.inj hlen)
              have hmem : intr ∈ ints.filter (· ≠ 0) := hvalues ▸ List.mem_cons_self
              obtain ⟨n, rfl⟩ := Int.eq_ofNat_of_zero_le (hpos intr (List.mem_of_mem_filter hmem))
              simp only [List.zipWith_cons_cons, List.zipWith_nil_left, split_intrLine,
                binInt_formatInt]
              rfl
          | cons intr' rest =>
              cases addrs with
              | nil => cases Nat.succ.inj hlen
              | cons addr' addrs => rfl

theorem isa_intr_external :
    writeIsaIntr (rtlIntr 0x80000100 [0, 4, 0]) 0x80000108 = .ok (intrLine 0x80000108 4) :=
  isa_intr (by decide) 0x80000108

end Difuzz.Signature
