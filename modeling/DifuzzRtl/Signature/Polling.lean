/-
  File:      DifuzzRtl/Signature/Polling.lean
  Subject:   How the RTL host ends a test and what it returns (`rvRTLhost.run_test`).

  Every 100 cycles the host looks at `tohost`. Afterwards a test whose loop has come to its last cycle
  counts as one that has not ended. The variable of the loop is that of the loop over the hex file: a
  run of no cycles at all leaves it there.

  * `pollLoop` -- the last cycle of the loop; `runTest` -- what the host returns.
  * `pollLoop_range` -- the loop ends early exactly if `tohost` is seen before the last cycle.
  * `runTest_success` -- when a test counts as one that has ended.
-/
import DifuzzRtl.Signature.Setup

namespace Difuzz.Signature

/-! ## 1. The host -/

def success : Int := 0
def assertionFail : Int := 1
def timeOut : Int := 1
def illMem : Int := -1

/-- `i` has no value. -/
inductive HostError where
  | unbound
  deriving DecidableEq, Repr

/-- What the loop over the words from `_start` to `_end_main` leaves in `i`. -/
def hexIndex (start endMain : Nat) : Option Nat :=
  (List.range (range8 start (endMain + 36)).length).getLast?

/-- **The loop over the cycles**, with the value of `tohost` in each; `i` is the variable of the loop. -/
def pollLoop (tohost : Nat → Nat) : List Nat → Option Nat → Option Nat
  | [], i => i
  | c :: cs, _ => if c % 100 = 0 ∧ tohost c ≠ 0 then some c else pollLoop tohost cs (some c)

/-- `DRAM_BASE`. -/
def dramBase : Nat := 0x80000000

/-- `mem_check`, on the addresses of the memory. -/
def memCheck (bootromAddrs addrs : List Nat) : Bool :=
  addrs.all fun addr => !(addr ∉ bootromAddrs && addr < dramBase)

/-- **`run_test` from the loop on**, without the coverage: the values of `tohost`, the addresses of the
    memory and `metaAssert` at the end are those of the design. -/
def runTest (start endMain : Nat) (tohost : Nat → Nat) (maxCycles : Nat)
    (bootromAddrs addrs : List Nat) (metaAssert : Bool) : Except HostError Int :=
  let last := pollLoop tohost (List.range maxCycles) (hexIndex start endMain)
  if !memCheck bootromAddrs addrs then .ok illMem
  else
    match last with
    | none => .error .unbound
    | some i =>
        if i + 1 = maxCycles then .ok timeOut
        else if metaAssert then .ok assertionFail
        else .ok success

/-! ## 2. When a test has ended -/

theorem hexIndex_eq_some {start endMain : Nat} :
    (∃ i, hexIndex start endMain = some i) ↔ start < endMain + 36 := by
  unfold hexIndex range8
  rw [← Option.isSome_iff_exists, List.getLast?_isSome, List.length_map, List.length_range,
    ← List.length_pos_iff_ne_nil, List.length_range]
  omega

/-- From any cycle on: the loop stops in front of its last cycle exactly if `tohost` is seen there. -/
theorem pollLoop_range (tohost : Nat → Nat) (n s : Nat) (i : Option Nat) :
    ∃ r, pollLoop tohost (List.range' s (n + 1)) i = some r ∧ r ≤ s + n ∧
      (r < s + n ↔ ∃ c, s ≤ c ∧ c < s + n ∧ c % 100 = 0 ∧ tohost c ≠ 0) := by
  induction n generalizing s i with
  | zero =>
      refine ⟨s, ?_, Nat.le_refl _, ?_⟩
      · show (if _ then some s else some s) = some s
        exact ite_self _
      · constructor
        · intro h
          exact absurd h (Nat.lt_irrefl _)
        · intro h
          obtain ⟨c, hs, hc, _⟩ := h
          omega
  | succ n ih =>
      rw [List.range'_succ, pollLoop]
      by_cases hpoll : s % 100 = 0 ∧ tohost s ≠ 0
      · rw [if_pos hpoll]
        exact ⟨s, rfl, by omega, fun _ => ⟨s, Nat.le_refl _, by omega, hpoll⟩, fun _ => by omega⟩
      · rw [if_neg hpoll]
        obtain ⟨r, hr, hle, hiff⟩ := ih (s + 1) (some s)
        refine ⟨r, hr, by omega, ?_⟩
        have hsum : s + 1 + n = s + (n + 1) := by omega
        rw [hsum] at hiff
        rw [hiff]
        constructor
        · intro h
          obtain ⟨c, hs, hc, hseen⟩ := h
          exact ⟨c, by omega, hc, hseen⟩
        · intro h
          obtain ⟨c, hs, hc, hseen⟩ := h
          refine ⟨c, ?_, hc, hseen⟩
          rcases Nat.eq_or_lt_of_le hs with rfl | hlt
          · exact absurd hseen hpoll
          · exact hlt

/-- **When a test has ended.** It has if the addresses are allowed, no assertion has failed, and `tohost`
    was seen at a multiple of 100 cycles in front of the last cycle: what is first seen in the last
    cycle counts as a time-out. A run of no cycles counts as one that has ended. -/
theorem runTest_success {start endMain : Nat} {tohost : Nat → Nat} {maxCycles : Nat}
    {bootromAddrs addrs : List Nat} {metaAssert : Bool} :
    runTest start endMain tohost maxCycles bootromAddrs addrs metaAssert = .ok success ↔
      memCheck bootromAddrs addrs = true ∧ metaAssert = false ∧
      ((∃ k, 100 * k + 1 < maxCycles ∧ tohost (100 * k) ≠ 0) ∨
        maxCycles = 0 ∧ start < endMain + 36) := by
  unfold runTest
  by_cases hmem : memCheck bootromAddrs addrs = true
  · cases maxCycles with
    | zero =>
        -- `i` is the index of the last line
        rw [← hexIndex_eq_some]
        have hpoll : pollLoop tohost (List.range 0) (hexIndex start endMain) =
            hexIndex start endMain := rfl
        rw [hpoll]
        cases hexIndex start endMain with
        | none => simp [hmem]
        | some i =>
            cases metaAssert with
            | true => simp [hmem, assertionFail, success]
            | false => simp [hmem]
    | succ n =>
        obtain ⟨r, hr, hle, hiff⟩ := pollLoop_range tohost n 0 (hexIndex start endMain)
        rw [List.range_eq_range', hr]
        have hseen : (∃ k, 100 * k + 1 < n + 1 ∧ tohost (100 * k) ≠ 0) ↔ r < n := by
          rw [Nat.zero_add] at hiff
          rw [hiff]
          constructor
          · intro h
            obtain ⟨k, hk, hne⟩ := h
            exact ⟨100 * k, Nat.zero_le _, by omega, by omega, hne⟩
          · intro h
            obtain ⟨c, _, hc, hdvd, hne⟩ := h
            have hcut : 100 * (c / 100) = c := by omega
            exact ⟨c / 100, by omega, by rwa [hcut]⟩
        rw [hseen]
        simp only [hmem, Bool.not_true, Bool.false_eq_true, if_false, true_and, Nat.succ_ne_zero,
          false_and, or_false]
        by_cases hlast : r + 1 = n + 1
        · rw [if_pos hlast]
          constructor
          · intro h
            have hcode := Except.ok.inj h
            cases hcode
          · intro h
            omega
        · rw [if_neg hlast]
          cases metaAssert with
          | true => simp [assertionFail, success]
          | false =>
              have hlt : r < n := by omega
              simp [hlt]
  · rw [Bool.not_eq_true] at hmem
    simp [hmem, illMem, success]

end Difuzz.Signature
