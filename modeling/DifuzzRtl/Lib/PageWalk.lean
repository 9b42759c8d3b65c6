/-
  File:      DifuzzRtl/Lib/PageWalk.lean
  Subject:   The translation of RISC-V page tables (Sv39 with three levels, Sv48 with four).

  The memory is a function on the doublewords of the physical address space, which has 56 bits. An entry
  is a number of 64 bits: `V`, `R`, `W`, `X`, `U`, `G`, `A` and `D` from bit 0 on, and 44 bits of page
  number from bit 10 on.

  * `walk` -- from the table of a level down to a leaf, or to a page fault.
  * `translate` -- the walk that the MODE field of `satp` selects, for a canonical address.
  * `entry` -- a page number with its flags; what the walk does at a pointer (`walk_pointer`), at an entry
    that is zero (`walk_zero`), and at a leaf of the last level (`walk_leaf`).
-/
import Mathlib.Tactic.Common
import Mathlib.Algebra.Group.Nat.Defs

namespace Difuzz.PageWalk

abbrev Memory := Nat → Nat

/-- A page in physical memory, and what is allowed there. -/
structure Mapping where
  addr : Nat
  read : Bool
  write : Bool
  execute : Bool
  deriving DecidableEq, Repr

/-- The index of an address into the table of a level; level 0 has the leaves of pages. -/
def vpn (va i : Nat) : Nat := (va >>> (12 + 9 * i)) % 512

def ppn (pte : Nat) : Nat := (pte >>> 10) % 2 ^ 44

/-- The walk through `levels` levels, from the table in the page `table` on. -/
def walk (mem : Memory) (va : Nat) : (levels : Nat) → (table : Nat) → Option Mapping
  | 0, _ => none
  | i + 1, table =>
      let pte := mem (table * 512 + vpn va i)
      let r := pte.testBit 1
      let w := pte.testBit 2
      let x := pte.testBit 3
      if pte.testBit 0 = false ∨ (r = false ∧ w = true) then none
      else if r = true ∨ x = true then
        -- a superpage is aligned, and was accessed; a page that is written is dirty
        if ppn pte % 2 ^ (9 * i) ≠ 0 ∨ pte.testBit 6 = false then none
        else some ⟨ppn pte * 4096 + va % 2 ^ (12 + 9 * i), r, w && pte.testBit 7, x⟩
      else walk mem va i (ppn pte)

/-- The bits above the last index are copies of its highest one. -/
def Canonical (levels va : Nat) : Prop :=
  va >>> (11 + 9 * levels) = 0 ∨ va >>> (11 + 9 * levels) = 2 ^ (53 - 9 * levels) - 1

instance (levels va : Nat) : Decidable (Canonical levels va) := inferInstanceAs (Decidable (_ ∨ _))

/-- The levels of a MODE. -/
def modeLevels : Nat → Option Nat
  | 8 => some 3
  | 9 => some 4
  | _ => none

def mode (satp : Nat) : Nat := (satp >>> 60) % 16

/-- The walk that a MODE selects, from the root table in a page on. -/
def walkMode (mem : Memory) (mode root va : Nat) : Option Mapping :=
  (modeLevels mode).bind fun levels => if Canonical levels va then walk mem va levels root else none

/-! ## Entries -/

/-- A page number and flags. -/
def entry (page flags : Nat) : Nat := 1024 * page + flags

section Entry

variable {page flags : Nat}

theorem entry_testBit (h : flags < 1024) {j : Nat} (hj : j < 10) :
    (entry page flags).testBit j = flags.testBit j := by
  have hbit := Nat.testBit_two_pow_mul_add (i := 10) page h j
  rw [if_pos hj] at hbit
  exact hbit

theorem ppn_entry (h : flags < 1024) : ppn (entry page flags) = page % 2 ^ 44 := by
  have hshift : (entry page flags) >>> 10 = page := by
    rw [Nat.shiftRight_eq_div_pow, entry]
    omega
  rw [ppn, hshift]

variable {mem : Memory} {va i table : Nat}

/-- No entry. -/
theorem walk_zero (h : mem (table * 512 + vpn va i) = 0) : walk mem va (i + 1) table = none := by
  rw [walk, h]
  rfl

/-- A pointer to the next table. -/
theorem walk_pointer (h : mem (table * 512 + vpn va i) = entry page 1) :
    walk mem va (i + 1) table = walk mem va i (page % 2 ^ 44) := by
  have hbit : ∀ j < 10, (entry page 1).testBit j = (1 : Nat).testBit j := fun j hj =>
    entry_testBit (by decide) hj
  rw [walk]
  simp only [h, hbit 0 (by decide), hbit 1 (by decide), hbit 2 (by decide), hbit 3 (by decide),
    ppn_entry (by decide : 1 < 1024)]
  rfl

/-- A page that may be read, written and executed. -/
theorem walk_leaf (h : mem (table * 512 + vpn va 0) = entry page 0xCF) :
    walk mem va 1 table = some ⟨page % 2 ^ 44 * 4096 + va % 4096, true, true, true⟩ := by
  have hbit : ∀ j < 10, (entry page 0xCF).testBit j = (0xCF : Nat).testBit j := fun j hj =>
    entry_testBit (by decide) hj
  rw [walk]
  simp only [h, hbit 0 (by decide), hbit 1 (by decide), hbit 2 (by decide), hbit 3 (by decide),
    hbit 6 (by decide), hbit 7 (by decide), ppn_entry (by decide : 0xCF < 1024)]
  simp [Nat.testBit, Nat.mod_one]

end Entry

end Difuzz.PageWalk
