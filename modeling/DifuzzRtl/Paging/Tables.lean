/-
  File:      DifuzzRtl/Paging/Tables.lean
  Subject:   The page tables of the paging test program (src/Fuzzer/rv64-pt/rv64-pt.c).

  There is one table for each level: all pointers of a level go to the same next table.

  * `initPagetables`, `enablePaging`, `handlePageFault` -- the functions of the program, on its memory,
    its table pointers and `satp`.
  * `Tables` -- the content of the tables after some faults: which entries are used, and which of the
    pages were mapped by a fault.
  * `tables_run` -- any sequence of faults keeps to it.
-/
import Mathlib.Data.List.Induction
import DifuzzRtl.Lib.PageWalk

namespace Difuzz.Paging

open PageWalk

/-! ## 1. The program -/

def pageSize : Nat := 4096

def pteV : Nat := 1 <<< 0

def pteR : Nat := 1 <<< 1

def pteW : Nat := 1 <<< 2

def pteX : Nat := 1 <<< 3

def pteA : Nat := 1 <<< 6

def pteD : Nat := 1 <<< 7

/-- The memory, the static pointers and `satp`. -/
structure Machine where
  mem : Memory
  l0 : Nat
  l1 : Nat
  l2 : Nat
  l3 : Nat
  satp : Nat

/-- The doubleword at an index behind a pointer; the bus has 56 bits. -/
def slot (p idx : Nat) : Nat := (p + 8 * idx) % 2 ^ 56 / 8

def load (mem : Memory) (p idx : Nat) : Nat := mem (slot p idx)

def store (p idx v : Nat) (mem : Memory) : Memory := fun a => if a = slot p idx then v else mem a

/-- `memset(p, 0, n)`, for whole doublewords. -/
def memset (p n : Nat) (mem : Memory) : Memory :=
  (List.range (n / 8)).foldl (fun mem i => store p i 0 mem) mem

/-- Pointers have 64 bits. -/
def wrap (p : Nat) : Nat := p % 2 ^ 64

/-- The entry of a page of the test code. -/
def memEntry (i : Nat) : Nat :=
  ((0x80000000 + i * pageSize) >>> 2) ||| pteV ||| pteR ||| pteW ||| pteX ||| pteA ||| pteD

/-- A pointer to the next table. -/
def tableEntry (p : Nat) : Nat := (p >>> 2) ||| pteV

def initPagetables (baseAddr : Nat) (m : Machine) : Machine :=
  let l0 := baseAddr
  let l1 := wrap (baseAddr + pageSize)
  let l2 := wrap (baseAddr + 2 * pageSize)
  let l3 := wrap (baseAddr + 3 * pageSize)
  let mem := memset l3 pageSize (memset l2 pageSize (memset l1 pageSize (memset l0 pageSize m.mem)))
  let mem := (List.range 512).foldl (fun mem i => store l3 i (memEntry i) mem) mem
  let mem := store l2 0 (tableEntry l3) mem
  let mem := store l1 0 (tableEntry l2) mem
  let mem := store l0 0 (tableEntry l1) mem
  { m with mem, l0, l1, l2, l3 }

def enablePaging (ptBase : Nat) (m : Machine) : Machine :=
  { m with satp := (ptBase >>> 12) ||| (8 <<< 60) }

/-- An entry is made unless there is one. -/
def fillEntry (p idx next : Nat) (mem : Memory) : Memory :=
  if load mem p idx &&& pteV = 0 then store p idx (tableEntry next) mem else mem

def handlePageFault (addr : Nat) (m : Machine) : Machine :=
  let paddr := 0x90000000
  let vpn := addr >>> 12
  let idx0 := (vpn >>> 27) &&& 0x1FF
  let idx1 := (vpn >>> 18) &&& 0x1FF
  let idx2 := (vpn >>> 9) &&& 0x1FF
  let idx3 := vpn &&& 0x1FF
  let mem := fillEntry m.l0 idx0 m.l1 m.mem
  let mem := fillEntry m.l1 idx1 m.l2 mem
  let mem := fillEntry m.l2 idx2 m.l3 mem
  let mem := store m.l3 idx3 ((paddr >>> 2) ||| pteV ||| pteR ||| pteW ||| pteX ||| pteA ||| pteD) mem
  { m with mem }

/-- The start of the program, and page faults in their order. -/
def run (ptBase : Nat) (faults : List Nat) (m : Machine) : Machine :=
  faults.foldl (fun m addr => handlePageFault addr m) (enablePaging ptBase (initPagetables ptBase m))

/-! ## 2. Entries and slots -/

theorem or_flags {page flags : Nat} (h : flags < 1024) : (4096 * page) >>> 2 ||| flags = entry page flags := by
  have hshift : (4096 * page) >>> 2 = page <<< 10 := by
    rw [Nat.shiftRight_eq_div_pow, Nat.shiftLeft_eq]
    omega
  rw [hshift, ← Nat.shiftLeft_add_eq_or_of_lt (i := 10) h, Nat.shiftLeft_eq, entry]
  omega

theorem tableEntry_eq (page : Nat) : tableEntry (4096 * page) = entry page 1 :=
  or_flags (by decide : 1 < 1024)

theorem memEntry_eq (i : Nat) : memEntry i = entry (0x80000 + i) 0xCF := by
  have haddr : 0x80000000 + i * pageSize = 4096 * (0x80000 + i) := by
    rw [pageSize]
    omega
  rw [memEntry, haddr, Nat.or_assoc, Nat.or_assoc, Nat.or_assoc, Nat.or_assoc, Nat.or_assoc]
  exact or_flags (by decide : 0xCF < 1024)

theorem faultEntry_eq : (0x90000000 >>> 2) ||| pteV ||| pteR ||| pteW ||| pteX ||| pteA ||| pteD =
    entry 0x90000 0xCF := by
  decide

/-- The slots of a page. -/
theorem slot_page (page : Nat) {i : Nat} (hi : i < 512) : slot (4096 * page) i = page % 2 ^ 44 * 512 + i := by
  have hmod : (4096 * page + 8 * i) % 2 ^ 56 = 4096 * (page % 2 ^ 44) + 8 * i := by
    omega
  rw [slot, hmod]
  omega

theorem slot_inj {p q i j : Nat} (hi : i < 512) (hj : j < 512) :
    p * 512 + i = q * 512 + j ↔ p = q ∧ i = j := by
  omega

theorem and_pteV (v : Nat) : v &&& pteV = 0 ↔ v.testBit 0 = false := by
  have h : v &&& 1 = v % 2 := Nat.and_one_is_mod v
  have hb : v.testBit 0 = decide (v % 2 = 1) := Nat.testBit_zero v
  rw [pteV, Nat.shiftLeft_zero, h, hb, decide_eq_false_iff_not]
  omega

theorem and_index (v : Nat) : v &&& 0x1FF = v % 512 := Nat.and_two_pow_sub_one_eq_mod v 9

theorem store_page {page idx : Nat} (hidx : idx < 512) (v : Nat) (mem : Memory) (p i : Nat) (hi : i < 512) :
    store (4096 * page) idx v mem (p * 512 + i) =
      if p = page % 2 ^ 44 ∧ i = idx then v else mem (p * 512 + i) := by
  unfold store
  rw [slot_page page hidx]
  by_cases h : p * 512 + i = page % 2 ^ 44 * 512 + idx
  · rw [if_pos h, if_pos ((slot_inj hi hidx).mp h)]
  · rw [if_neg h, if_neg fun hc => h ((slot_inj hi hidx).mpr hc)]

/-- What a loop of stores leaves in the memory. -/
theorem foldl_store (page n : Nat) (hn : n ≤ 512) (f : Nat → Nat) (mem : Memory) (p i : Nat) (hi : i < 512) :
    ((List.range n).foldl (fun mem i => store (4096 * page) i (f i) mem) mem) (p * 512 + i) =
      if p = page % 2 ^ 44 ∧ i < n then f i else mem (p * 512 + i) := by
  induction n with
  | zero => simp
  | succ n ih =>
      rw [List.range_succ, List.foldl_append]
      show store (4096 * page) n (f n) _ _ = _
      rw [store_page (by omega) _ _ p i hi, ih (by omega)]
      by_cases hp : p = page % 2 ^ 44
      · by_cases hin : i = n
        · simp [hp, hin]
        · have hlt : i < n + 1 ↔ i < n := by omega
          simp [hp, hin, hlt]
      · rw [if_neg fun h => hp h.1, if_neg fun h => hp h.1, if_neg fun h => hp h.1]

/-! ## 3. The content of the tables -/

/-- The page of the table of a depth. -/
def tablePage (q k : Nat) : Nat := (q + k) % 2 ^ 44

/-- An entry of the table of a level is used: the start uses the first one, a fault uses its own. -/
def Used (level : Nat) (faults : List Nat) (i : Nat) : Prop := i = 0 ∨ ∃ f ∈ faults, vpn f level = i

instance (level : Nat) (faults : List Nat) (i : Nat) : Decidable (Used level faults i) :=
  inferInstanceAs (Decidable (_ ∨ _))

/-- The page that a leaf maps: the page of the faults, or one of the test code. -/
def leafPage (faults : List Nat) (i : Nat) : Nat :=
  if ∃ f ∈ faults, vpn f 0 = i then 0x90000 else 0x80000 + i

structure Tables (q : Nat) (faults : List Nat) (m : Machine) : Prop where
  l0 : m.l0 = 4096 * q
  l1 : m.l1 = 4096 * ((q + 1) % 2 ^ 52)
  l2 : m.l2 = 4096 * ((q + 2) % 2 ^ 52)
  l3 : m.l3 = 4096 * ((q + 3) % 2 ^ 52)
  top : ∀ i < 512, m.mem (tablePage q 0 * 512 + i) =
    if Used 3 faults i then entry ((q + 1) % 2 ^ 52) 1 else 0
  second : ∀ i < 512, m.mem (tablePage q 1 * 512 + i) =
    if Used 2 faults i then entry ((q + 2) % 2 ^ 52) 1 else 0
  third : ∀ i < 512, m.mem (tablePage q 2 * 512 + i) =
    if Used 1 faults i then entry ((q + 3) % 2 ^ 52) 1 else 0
  leaves : ∀ i < 512, m.mem (tablePage q 3 * 512 + i) = entry (leafPage faults i) 0xCF

theorem page_wrap (q k : Nat) : (q + k) % 2 ^ 52 % 2 ^ 44 = tablePage q k := by
  unfold tablePage
  omega

theorem tablePage_inj {q j k : Nat} (hj : j < 4) (hk : k < 4) : tablePage q j = tablePage q k ↔ j = k := by
  unfold tablePage
  omega

theorem wrap_page (q k : Nat) : wrap (4096 * q + k * pageSize) = 4096 * ((q + k) % 2 ^ 52) := by
  unfold wrap pageSize
  omega

theorem memset_page (page : Nat) (mem : Memory) (p i : Nat) (hi : i < 512) :
    memset (4096 * page) pageSize mem (p * 512 + i) = if p = page % 2 ^ 44 then 0 else mem (p * 512 + i) := by
  have h := foldl_store page 512 (Nat.le_refl _) (fun _ => 0) mem p i hi
  simp only [hi, and_true] at h
  exact h

/-- **The tables at the start.** -/
theorem tables_init (q : Nat) (m : Machine) : Tables q [] (initPagetables (4096 * q) m) := by
  have h₁ : wrap (4096 * q + pageSize) = 4096 * ((q + 1) % 2 ^ 52) := by
    have h := wrap_page q 1
    rwa [Nat.one_mul] at h
  have hmem : ∀ k < 4, ∀ i < 512, (initPagetables (4096 * q) m).mem (tablePage q k * 512 + i) =
      if k = 0 ∧ i = 0 then entry ((q + 1) % 2 ^ 52) 1
      else if k = 1 ∧ i = 0 then entry ((q + 2) % 2 ^ 52) 1
      else if k = 2 ∧ i = 0 then entry ((q + 3) % 2 ^ 52) 1
      else if k = 3 then entry (0x80000 + i) 0xCF else 0 := by
    intro k hk i hi
    have hpage : ∀ j < 4, tablePage q k = tablePage q j ↔ k = j := fun j hj => tablePage_inj hk hj
    have h₀ : q % 2 ^ 44 = tablePage q 0 := rfl
    unfold initPagetables
    dsimp only
    rw [h₁, wrap_page q 2, wrap_page q 3, tableEntry_eq, tableEntry_eq, tableEntry_eq,
      store_page (by decide) _ _ _ _ hi, store_page (by decide) _ _ _ _ hi,
      store_page (by decide) _ _ _ _ hi, foldl_store _ 512 (Nat.le_refl _) _ _ _ _ hi,
      memset_page _ _ _ _ hi, memset_page _ _ _ _ hi, memset_page _ _ _ _ hi, memset_page _ _ _ _ hi,
      page_wrap, page_wrap, page_wrap, h₀, memEntry_eq]
    simp only [hpage 0 (by decide), hpage 1 (by decide), hpage 2 (by decide), hpage 3 (by decide)]
    have hcases : k = 0 ∨ k = 1 ∨ k = 2 ∨ k = 3 := by omega
    rcases hcases with rfl | rfl | rfl | rfl <;> simp [hi]
  refine ⟨rfl, h₁, wrap_page q 2, wrap_page q 3, fun i hi => ?_, fun i hi => ?_, fun i hi => ?_,
    fun i hi => ?_⟩
  · rw [hmem 0 (by decide) i hi]
    simp [Used]
  · rw [hmem 1 (by decide) i hi]
    simp [Used]
  · rw [hmem 2 (by decide) i hi]
    simp [Used]
  · rw [hmem 3 (by decide) i hi]
    simp [leafPage]

/-- An entry that is filled, whether it was there or not. -/
theorem fillEntry_page {page idx next : Nat} (hidx : idx < 512) {mem : Memory} {U : Nat → Prop}
    [DecidablePred U]
    (h : ∀ i < 512, mem (page % 2 ^ 44 * 512 + i) = if U i then entry next 1 else 0) (p i : Nat)
    (hi : i < 512) : fillEntry (4096 * page) idx (4096 * next) mem (p * 512 + i) =
      if p = page % 2 ^ 44 ∧ i = idx then entry next 1 else mem (p * 512 + i) := by
  unfold fillEntry load
  rw [slot_page page hidx, h idx hidx]
  by_cases hu : U idx
  · rw [if_pos hu, if_neg]
    · by_cases hp : p = page % 2 ^ 44 ∧ i = idx
      · rw [if_pos hp, hp.1, hp.2, h idx hidx, if_pos hu]
      · rw [if_neg hp]
    · rw [and_pteV, entry_testBit (by decide) (by decide)]
      decide
  · rw [if_neg hu, if_pos (by rw [Nat.zero_and]), store_page hidx _ _ _ _ hi, tableEntry_eq]

theorem vpn_lt (va i : Nat) : vpn va i < 512 := Nat.mod_lt _ (by decide)

/-- The indices of the program are those of the walk. -/
theorem index_eq (addr i : Nat) : ((addr >>> 12) >>> (9 * i)) &&& 0x1FF = vpn addr i := by
  rw [and_index, vpn, Nat.shiftRight_add]

theorem used_append (level : Nat) (faults : List Nat) (a i : Nat) :
    Used level (faults ++ [a]) i ↔ Used level faults i ∨ i = vpn a level := by
  simp [Used, or_and_right, exists_or, or_assoc, eq_comm]

/-- **A fault** uses its entries, and maps its page. -/
theorem tables_fault {q : Nat} {faults : List Nat} {m : Machine} (h : Tables q faults m) (a : Nat) :
    Tables q (faults ++ [a]) (handlePageFault a m) := by
  have hmem : ∀ k < 4, ∀ i < 512, (handlePageFault a m).mem (tablePage q k * 512 + i) =
      if k = 3 ∧ i = vpn a 0 then entry 0x90000 0xCF
      else if k = 2 ∧ i = vpn a 1 then entry ((q + 3) % 2 ^ 52) 1
      else if k = 1 ∧ i = vpn a 2 then entry ((q + 2) % 2 ^ 52) 1
      else if k = 0 ∧ i = vpn a 3 then entry ((q + 1) % 2 ^ 52) 1
      else m.mem (tablePage q k * 512 + i) := by
    intro k hk i hi
    have hpage : ∀ j < 4, tablePage q k = tablePage q j ↔ k = j := fun j hj => tablePage_inj hk hj
    have hother : ∀ j < 4, ∀ l < 4, j ≠ l → ¬ tablePage q j = tablePage q l := fun j hj l hl hjl e =>
      hjl ((tablePage_inj hj hl).mp e)
    have h₀ : q % 2 ^ 44 = tablePage q 0 := rfl
    have e₀ : (a >>> 12) &&& 0x1FF = vpn a 0 := index_eq a 0
    have e₁ : ((a >>> 12) >>> 9) &&& 0x1FF = vpn a 1 := index_eq a 1
    have e₂ : ((a >>> 12) >>> 18) &&& 0x1FF = vpn a 2 := index_eq a 2
    have e₃ : ((a >>> 12) >>> 27) &&& 0x1FF = vpn a 3 := index_eq a 3
    -- the three fills, one after the other
    have f₀ := fun p i hi => @fillEntry_page q _ ((q + 1) % 2 ^ 52) (vpn_lt a 3) _ _ _ h.top p i hi
    have f₁ := fun p i hi => @fillEntry_page ((q + 1) % 2 ^ 52) _ ((q + 2) % 2 ^ 52) (vpn_lt a 2)
      (fillEntry (4096 * q) (vpn a 3) (4096 * ((q + 1) % 2 ^ 52)) m.mem) (Used 2 faults) _ (fun i hi => by
        rw [page_wrap, f₀ _ _ hi, h₀, if_neg fun e => hother 1 (by decide) 0 (by decide) (by decide) e.1]
        exact h.second i hi) p i hi
    have f₂ := fun p i hi => @fillEntry_page ((q + 2) % 2 ^ 52) _ ((q + 3) % 2 ^ 52) (vpn_lt a 1)
      (fillEntry (4096 * ((q + 1) % 2 ^ 52)) (vpn a 2) (4096 * ((q + 2) % 2 ^ 52))
        (fillEntry (4096 * q) (vpn a 3) (4096 * ((q + 1) % 2 ^ 52)) m.mem)) (Used 1 faults) _ (fun i hi => by
        rw [page_wrap, f₁ _ _ hi, page_wrap,
          if_neg fun e => hother 2 (by decide) 1 (by decide) (by decide) e.1, f₀ _ _ hi, h₀,
          if_neg fun e => hother 2 (by decide) 0 (by decide) (by decide) e.1]
        exact h.third i hi) p i hi
    unfold handlePageFault
    dsimp only
    rw [e₀, e₁, e₂, e₃, h.l0, h.l1, h.l2, h.l3, store_page (vpn_lt a 0) _ _ _ _ hi, f₂ _ _ hi, f₁ _ _ hi,
      f₀ _ _ hi, page_wrap, page_wrap, page_wrap, h₀, faultEntry_eq]
    simp only [hpage 0 (by decide), hpage 1 (by decide), hpage 2 (by decide), hpage 3 (by decide)]
  refine ⟨h.l0, h.l1, h.l2, h.l3, fun i hi => ?_, fun i hi => ?_, fun i hi => ?_, fun i hi => ?_⟩
  · rw [hmem 0 (by decide) i hi, h.top i hi]
    by_cases hi' : i = vpn a 3 <;> simp [hi', used_append]
  · rw [hmem 1 (by decide) i hi, h.second i hi]
    by_cases hi' : i = vpn a 2 <;> simp [hi', used_append]
  · rw [hmem 2 (by decide) i hi, h.third i hi]
    by_cases hi' : i = vpn a 1 <;> simp [hi', used_append]
  · rw [hmem 3 (by decide) i hi, h.leaves i hi]
    by_cases hi' : i = vpn a 0
    · simp [hi', leafPage]
    · simp [hi', Ne.symm hi', leafPage, or_and_right, exists_or]

theorem run_append (ptBase : Nat) (faults : List Nat) (a : Nat) (m : Machine) :
    run ptBase (faults ++ [a]) m = handlePageFault a (run ptBase faults m) := by
  rw [run, run, List.foldl_append]
  rfl

/-- **The tables after any sequence of faults.** -/
theorem tables_run (q : Nat) (faults : List Nat) (m : Machine) :
    Tables q faults (run (4096 * q) faults m) ∧
      (run (4096 * q) faults m).satp = ((4096 * q) >>> 12) ||| (8 <<< 60) := by
  induction faults using List.reverseRecOn with
  | nil =>
      have h := tables_init q m
      exact ⟨⟨h.l0, h.l1, h.l2, h.l3, h.top, h.second, h.third, h.leaves⟩, rfl⟩
  | append_singleton faults a ih =>
      rw [run_append]
      exact ⟨tables_fault ih.1 a, ih.2⟩

end Difuzz.Paging
