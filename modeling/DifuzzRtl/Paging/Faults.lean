/-
  File:      DifuzzRtl/Paging/Faults.lean
  Subject:   What a handled page fault maps (`handle_page_fault` of src/Fuzzer/rv64-pt/rv64-pt.c).

  The tables have four levels, and `enable_paging` selects the mode with three: the walk ends at a
  pointer, and no address is mapped. With four levels a fault maps its page. But the tables are shared:
  the fault makes an entry in the last table, which all pages with its last index use, and entries in
  the others, which open ways to pages that no fault was about.

  * `walk_sv48`, `walk_sv39` -- the two walks, in any state of a run.
  * `fault_not_mapped` -- no fault is mapped under the mode that is written.
  * `Kept`, `fault_keeps_iff` -- when a fault leaves the translation of an address as it is.
-/
import DifuzzRtl.Paging.Tables

namespace Difuzz.Paging

open PageWalk

/-! ## 1. The walks -/

/-- The upper entries on the way of an address are used. -/
def Reached (faults : List Nat) (b : Nat) : Prop :=
  Used 3 faults (vpn b 3) ∧ Used 2 faults (vpn b 2) ∧ Used 1 faults (vpn b 1)

instance (faults : List Nat) (b : Nat) : Decidable (Reached faults b) := inferInstanceAs (Decidable (_ ∧ _))

/-- The page of the root table. -/
def rootPage (ptBase : Nat) : Nat := ptBase / 4096 % 2 ^ 44

section Walks

variable {q : Nat} {faults : List Nat} {m : Machine} (h : Tables q faults m)

include h

/-- **The walk through four levels**. -/
theorem walk_sv48 (b : Nat) : walk m.mem b 4 (tablePage q 0) =
    if Reached faults b then
      some ⟨leafPage faults (vpn b 0) * 4096 + b % 4096, true, true, true⟩
    else none := by
  have hpage : leafPage faults (vpn b 0) % 2 ^ 44 = leafPage faults (vpn b 0) := by
    have hi := vpn_lt b 0
    refine Nat.mod_eq_of_lt ?_
    unfold leafPage
    split <;> omega
  by_cases h₃ : Used 3 faults (vpn b 3)
  · rw [walk_pointer ((h.top _ (vpn_lt b 3)).trans (if_pos h₃)), page_wrap]
    by_cases h₂ : Used 2 faults (vpn b 2)
    · rw [walk_pointer ((h.second _ (vpn_lt b 2)).trans (if_pos h₂)), page_wrap]
      by_cases h₁ : Used 1 faults (vpn b 1)
      · rw [walk_pointer ((h.third _ (vpn_lt b 1)).trans (if_pos h₁)), page_wrap,
          walk_leaf (h.leaves _ (vpn_lt b 0)), hpage, if_pos ⟨h₃, h₂, h₁⟩]
      · rw [walk_zero ((h.third _ (vpn_lt b 1)).trans (if_neg h₁)), if_neg fun hr => h₁ hr.2.2]
    · rw [walk_zero ((h.second _ (vpn_lt b 2)).trans (if_neg h₂)), if_neg fun hr => h₂ hr.2.1]
  · rw [walk_zero ((h.top _ (vpn_lt b 3)).trans (if_neg h₃)), if_neg fun hr => h₃ hr.1]

/-- **The walk through three levels** ends at a pointer of the third table, or before. -/
theorem walk_sv39 (b : Nat) : walk m.mem b 3 (tablePage q 0) = none := by
  by_cases h₃ : Used 3 faults (vpn b 2)
  · rw [walk_pointer ((h.top _ (vpn_lt b 2)).trans (if_pos h₃)), page_wrap]
    by_cases h₂ : Used 2 faults (vpn b 1)
    · rw [walk_pointer ((h.second _ (vpn_lt b 1)).trans (if_pos h₂)), page_wrap]
      by_cases h₁ : Used 1 faults (vpn b 0)
      · rw [walk_pointer ((h.third _ (vpn_lt b 0)).trans (if_pos h₁))]
        rfl
      · exact walk_zero ((h.third _ (vpn_lt b 0)).trans (if_neg h₁))
    · exact walk_zero ((h.second _ (vpn_lt b 1)).trans (if_neg h₂))
  · exact walk_zero ((h.top _ (vpn_lt b 2)).trans (if_neg h₃))

end Walks

theorem rootPage_eq (q : Nat) : rootPage (4096 * q) = tablePage q 0 := by
  rw [rootPage, Nat.mul_div_cancel_left q (by decide)]
  rfl

/-! ## 2. The mode -/

/-- The address is mapped to the page of the faults, under the mode that was written. -/
def MapsFault (ptBase a : Nat) (m : Machine) : Prop :=
  walkMode m.mem (mode m.satp) (rootPage ptBase) a = some ⟨0x90000000 + a % 4096, true, true, true⟩

theorem mode_satp {q : Nat} (h : 4096 * q < 2 ^ 64) : mode (((4096 * q) >>> 12) ||| (8 <<< 60)) = 8 := by
  have hshift : (4096 * q) >>> 12 = q := by
    rw [Nat.shiftRight_eq_div_pow]
    omega
  have hlow : q < 2 ^ 60 := by omega
  rw [hshift, Nat.or_comm, ← Nat.shiftLeft_add_eq_or_of_lt hlow, mode, Nat.shiftRight_eq_div_pow,
    Nat.shiftLeft_eq]
  omega

theorem walkMode_run {q : Nat} (hq : 4096 * q < 2 ^ 64) (faults : List Nat) (a : Nat) (m : Machine) :
    walkMode (run (4096 * q) faults m).mem (mode (run (4096 * q) faults m).satp) (rootPage (4096 * q)) a =
      none := by
  obtain ⟨htables, hsatp⟩ := tables_run q faults m
  have hwalk := walk_sv39 htables a
  rw [hsatp, mode_satp hq, rootPage_eq]
  show (if Canonical 3 a then walk (run (4096 * q) faults m).mem a 3 (tablePage q 0) else none) = none
  rw [hwalk, ite_self]

/-- **No fault is mapped** under the mode that `enable_paging` writes, wherever the tables are and
    whatever faults were before. -/
theorem fault_not_mapped {ptBase : Nat} (hbase : ptBase < 2 ^ 64) (haligned : 4096 ∣ ptBase)
    (faults : List Nat) (a : Nat) (m : Machine) : ¬ MapsFault ptBase a (run ptBase (faults ++ [a]) m) := by
  obtain ⟨q, rfl⟩ := haligned
  unfold MapsFault
  rw [walkMode_run hbase]
  exact fun h => (nomatch h)

/-- A machine with an empty memory. -/
def emptyMachine : Machine := ⟨fun _ => 0, 0, 0, 0, 0, 0⟩

theorem fault_not_mapped_base :
    ¬ MapsFault 0x80030000 0x40001234 (run 0x80030000 ([0x1000] ++ [0x40001234]) emptyMachine) :=
  fault_not_mapped (by decide) ⟨0x80030, rfl⟩ [0x1000] 0x40001234 emptyMachine

/-- A fault at `0x1000`, with the tables where the linker puts them. -/
theorem fault_0x1000_not_mapped :
    Canonical 3 0x1000 ∧ ¬ MapsFault 0x80030000 0x1000 (run 0x80030000 [0x1000] emptyMachine) := by
  refine ⟨by decide, ?_⟩
  unfold MapsFault
  rw [walkMode_run (q := 0x80030) (by decide)]
  exact fun h => (nomatch h)

theorem used_own (level : Nat) (faults : List Nat) (a : Nat) : Used level (faults ++ [a]) (vpn a level) :=
  (used_append level faults a _).mpr (.inr rfl)

/-- **With the mode of four levels** a fault maps its page. -/
theorem sv48_maps_fault (q : Nat) (faults : List Nat) (a : Nat) (m : Machine) (h : Canonical 4 a) :
    walkMode (run (4096 * q) (faults ++ [a]) m).mem 9 (rootPage (4096 * q)) a =
      some ⟨0x90000000 + a % 4096, true, true, true⟩ := by
  have hleaf : leafPage (faults ++ [a]) (vpn a 0) = 0x90000 :=
    if_pos ⟨a, List.mem_append_right _ List.mem_cons_self, rfl⟩
  rw [rootPage_eq]
  show (if Canonical 4 a then walk _ a 4 (tablePage q 0) else none) = _
  rw [if_pos h, walk_sv48 (tables_run q (faults ++ [a]) m).1,
    if_pos ⟨used_own 3 faults a, used_own 2 faults a, used_own 1 faults a⟩, hleaf]

/-! ## 3. The other pages -/

/-- The translation of an address with four levels. -/
def sv48 (ptBase : Nat) (m : Machine) (b : Nat) : Option Mapping := walk m.mem b 4 (rootPage ptBase)

/-- A page that is reached has another last index than the fault, or was mapped by an earlier one; a page
    that is not reached stays so. -/
def Kept (faults : List Nat) (a b : Nat) : Prop :=
  if Reached faults b then vpn b 0 = vpn a 0 → ∃ f ∈ faults, vpn f 0 = vpn b 0
  else ¬ Reached (faults ++ [a]) b

instance (faults : List Nat) (a b : Nat) : Decidable (Kept faults a b) := by
  unfold Kept
  infer_instance

theorem leafPage_append (faults : List Nat) (a : Nat) {i : Nat} (hi : i < 512) :
    leafPage (faults ++ [a]) i = leafPage faults i ↔ (i = vpn a 0 → ∃ f ∈ faults, vpn f 0 = i) := by
  have hex : (∃ f ∈ faults ++ [a], vpn f 0 = i) ↔ (∃ f ∈ faults, vpn f 0 = i) ∨ vpn a 0 = i := by
    simp [or_and_right, exists_or]
  unfold leafPage
  by_cases hold : ∃ f ∈ faults, vpn f 0 = i
  · rw [if_pos hold, if_pos (hex.mpr (.inl hold))]
    exact ⟨fun _ _ => hold, fun _ => rfl⟩
  · rw [if_neg hold]
    by_cases ha : vpn a 0 = i
    · rw [if_pos (hex.mpr (.inr ha))]
      exact ⟨fun h => absurd h (by omega), fun h => absurd (h ha.symm) hold⟩
    · rw [if_neg fun h => (hex.mp h).elim hold ha]
      exact ⟨fun _ h => absurd h.symm ha, fun _ => rfl⟩

theorem sv48_run (q : Nat) (faults : List Nat) (m : Machine) (b : Nat) :
    sv48 (4096 * q) (run (4096 * q) faults m) b = if Reached faults b then
      some ⟨leafPage faults (vpn b 0) * 4096 + b % 4096, true, true, true⟩ else none := by
  rw [sv48, rootPage_eq]
  exact walk_sv48 (tables_run q faults m).1 b

/-- **A fault keeps the translation of an address exactly if it is `Kept`**: in every state that faults
    lead to, for every fault and every address. -/
theorem fault_keeps_iff {ptBase : Nat} (haligned : 4096 ∣ ptBase) (faults : List Nat) (a b : Nat)
    (m : Machine) :
    sv48 ptBase (handlePageFault a (run ptBase faults m)) b = sv48 ptBase (run ptBase faults m) b ↔
      Kept faults a b := by
  obtain ⟨q, rfl⟩ := haligned
  rw [← run_append, sv48_run, sv48_run]
  unfold Kept
  by_cases hr : Reached faults b
  · have hr' : Reached (faults ++ [a]) b := by
      have hmono : ∀ level i, Used level faults i → Used level (faults ++ [a]) i := fun level i h =>
        (used_append level faults a i).mpr (.inl h)
      exact ⟨hmono 3 _ hr.1, hmono 2 _ hr.2.1, hmono 1 _ hr.2.2⟩
    rw [if_pos hr, if_pos hr', if_pos hr, ← leafPage_append faults a (vpn_lt b 0), Option.some.injEq,
      Mapping.mk.injEq]
    exact ⟨fun h => by omega, fun h => ⟨by rw [h], rfl, rfl, rfl⟩⟩
  · rw [if_neg hr, if_neg hr]
    by_cases hr' : Reached (faults ++ [a]) b
    · rw [if_pos hr']
      exact ⟨fun h => (nomatch h), fun h => absurd hr' h⟩
    · rw [if_neg hr']
      exact ⟨fun _ => hr', fun _ => rfl⟩

theorem fault_keeps_base :
    sv48 0x80030000 (handlePageFault 0x205000 (run 0x80030000 [] emptyMachine)) 0x6000 =
      sv48 0x80030000 (run 0x80030000 [] emptyMachine) 0x6000 :=
  (fault_keeps_iff ⟨0x80030, rfl⟩ [] 0x205000 0x6000 emptyMachine).mpr (by decide +kernel)

/-- A fault at `0x205000` remaps the page at `0x5000` of the test code. -/
theorem fault_0x205000_remaps : 0x5000 >>> 12 ≠ 0x205000 >>> 12 ∧
    sv48 0x80030000 (run 0x80030000 [] emptyMachine) 0x5000 = some ⟨0x80005000, true, true, true⟩ ∧
    sv48 0x80030000 (handlePageFault 0x205000 (run 0x80030000 [] emptyMachine)) 0x5000 =
      some ⟨0x90000000, true, true, true⟩ := by
  refine ⟨by decide, ?_, ?_⟩
  · rw [sv48_run 0x80030]
    decide +kernel
  · rw [← run_append, sv48_run 0x80030]
    decide +kernel

end Difuzz.Paging
