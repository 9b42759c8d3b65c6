/-
  File:      DifuzzRtl/Signature/Bounds.lean
  Subject:   The indexes that the dump of the simulator (`htif_t::stop`) uses on its buffers.

  A buffer is given by its size alone here. The buffer of the signature has the size of the signature;
  every section is read into it too, while the buffer that is made for the section is never used. A
  buffer that cannot be made ends the dump: for a section that ends in front of its start the length
  is near `2^64`, and the constructor of the vector throws.

  * `stopAccesses` -- every index that `stop` fills or reads, in order; `alloc` says for which sizes
    there is a vector.
  * `stop_overflow_iff` -- if there is one for every size, they leave a buffer exactly where the model
    of the file raises `overflow`.
  * `stop_inBounds_iff` -- when none of them does.
-/
import DifuzzRtl.Signature.Files

namespace Difuzz.Signature

/-! ## 1. Accesses -/

/-- An index into a vector of a size. -/
structure Access where
  size : Nat
  index : Nat
  deriving DecidableEq, Repr

def Access.InBounds (a : Access) : Prop := a.index < a.size

instance (a : Access) : Decidable a.InBounds := inferInstanceAs (Decidable (_ < _))

/-- `mem.read(addr, len, &buf[0])`. -/
def fills (size len : Nat) : List Access := (List.range len).map fun i => ⟨size, i⟩

/-- `buf[i + j - 1]`, for the blocks `i` of sixteen bytes and `j` from sixteen down to one. -/
def prints (size len : Nat) : List Access :=
  (List.range (len / 16)).flatMap fun k => (List.range 16).map fun t => ⟨size, 16 * k + (16 - t) - 1⟩

/-- The loop over the data sections, with the buffer of the signature. An assertion ends it, and so
    does the constructor of `data_buf` where it throws. -/
def sectionAccesses (alloc : Nat → Bool) (size : Nat) : List (Nat × Nat) → List Access
  | [] => []
  | (s, e) :: rest =>
      if !alloc (addrDiff e s) then []
      else
        fills size (addrDiff e s) ++
          if addrDiff e s % 16 ≠ 0 then []
          else prints size (addrDiff e s) ++ sectionAccesses alloc size rest

/-- What `htif_t::stop` fills and reads. -/
def stopAccesses (alloc : Nat → Bool) (h : Htif) : List Access :=
  if h.sigLen = 0 then []
  else if !alloc h.sigLen then []
  else
    fills h.sigLen h.sigLen ++
      if h.sigLen % 16 ≠ 0 then []
      else prints h.sigLen h.sigLen ++ sectionAccesses alloc h.sigLen h.dataAddrs

/-- `std::vector<uint8_t>` throws for more than `max_size()` bytes. -/
def vectorAlloc (n : Nat) : Bool := n < 2 ^ 63

/-! ## 2. One region -/

/-- All accesses of a list are in bounds. -/
def AllInBounds (l : List Access) : Prop := ∀ a ∈ l, a.InBounds

theorem allInBounds_append {l l' : List Access} :
    AllInBounds (l ++ l') ↔ AllInBounds l ∧ AllInBounds l' := List.forall_mem_append

theorem fills_inBounds {size len : Nat} : AllInBounds (fills size len) ↔ len ≤ size := by
  constructor
  · intro h
    by_contra hlt
    -- the first byte behind the buffer
    have hmem : (⟨size, size⟩ : Access) ∈ fills size len :=
      List.mem_map_of_mem (List.mem_range.mpr (Nat.lt_of_not_le hlt))
    exact Nat.lt_irrefl size (h _ hmem)
  · intro h a ha
    obtain ⟨i, hi, rfl⟩ := List.mem_map.mp ha
    exact Nat.lt_of_lt_of_le (List.mem_range.mp hi) h

/-- What is printed has been filled before. -/
theorem prints_inBounds {size len : Nat} (h : len ≤ size) : AllInBounds (prints size len) := by
  intro a ha
  obtain ⟨k, hk, ha⟩ := List.mem_flatMap.mp ha
  obtain ⟨t, ht, rfl⟩ := List.mem_map.mp ha
  have hk := List.mem_range.mp hk
  have ht := List.mem_range.mp ht
  show 16 * k + (16 - t) - 1 < size
  omega

/-! ## 3. The whole dump -/

/-- The sections, one after the other: a section without a buffer, one that is too long, or one whose
    assertion ends the loop, decides. -/
theorem sectionAccesses_cons {alloc : Nat → Bool} {size s e : Nat} {rest : List (Nat × Nat)} :
    AllInBounds (sectionAccesses alloc size ((s, e) :: rest)) ↔
      (alloc (addrDiff e s) = true → addrDiff e s ≤ size ∧
        (addrDiff e s % 16 = 0 → AllInBounds (sectionAccesses alloc size rest))) := by
  rw [sectionAccesses]
  cases alloc (addrDiff e s) with
  | false => exact iff_of_true (fun a ha => (nomatch ha)) nofun
  | true =>
      simp only [Bool.not_true, Bool.false_eq_true, if_false, forall_const]
      rw [allInBounds_append, fills_inBounds]
      refine and_congr_right fun hle => ?_
      by_cases hmod : addrDiff e s % 16 = 0
      · rw [if_neg (not_not.mpr hmod), allInBounds_append]
        exact ⟨fun h _ => h.2, fun h => ⟨prints_inBounds hle, h hmod⟩⟩
      · rw [if_pos hmod]
        exact ⟨fun _ h => absurd h hmod, fun _ a ha => (nomatch ha)⟩

theorem stopAccesses_inBounds {alloc : Nat → Bool} {h : Htif} (hpos : h.sigLen ≠ 0)
    (halloc : alloc h.sigLen = true) (hmod : h.sigLen % 16 = 0) :
    AllInBounds (stopAccesses alloc h) ↔
      AllInBounds (sectionAccesses alloc h.sigLen h.dataAddrs) := by
  have hbuf : ¬ (!alloc h.sigLen) = true := by rw [halloc]; decide
  rw [stopAccesses, if_neg hpos, if_neg hbuf, if_neg (not_not.mpr hmod), allInBounds_append,
    allInBounds_append]
  exact ⟨fun h => h.2.2,
    fun h => ⟨fills_inBounds.mpr (Nat.le_refl _), prints_inBounds (Nat.le_refl _), h⟩⟩

/-- **The file is not written because of an overflow** exactly if an access leaves its buffer. -/
theorem stopSections_overflow_iff (mem : Bytes) (buf : List Nat) (sections : List (Nat × Nat)) :
    stopSections mem buf sections = .error .overflow ↔
      ¬ AllInBounds (sectionAccesses (fun _ => true) buf.length sections) := by
  induction sections generalizing buf with
  | nil => exact ⟨fun h => (by cases h), fun h => (h fun a ha => by cases ha).elim⟩
  | cons d rest ih =>
      obtain ⟨s, e⟩ := d
      rw [sectionAccesses_cons, stopSections, imp_iff_right rfl]
      by_cases hlt : buf.length < addrDiff e s
      · rw [if_pos hlt]
        exact iff_of_true rfl fun h => absurd h.1 (Nat.not_le_of_lt hlt)
      · have hle := Nat.le_of_not_lt hlt
        rw [if_neg hlt]
        by_cases hmod : addrDiff e s % 16 = 0
        · -- the buffer keeps its size
          have hlen : (readMem mem s (addrDiff e s) ++ buf.drop (addrDiff e s)).length =
              buf.length := by
            have hr : (readMem mem s (addrDiff e s)).length = addrDiff e s := by simp [readMem]
            rw [List.length_append, hr, List.length_drop]
            omega
          have hrest := ih (readMem mem s (addrDiff e s) ++ buf.drop (addrDiff e s))
          rw [hlen] at hrest
          rw [if_neg (not_not.mpr hmod)]
          dsimp only
          cases hs : stopSections mem (readMem mem s (addrDiff e s) ++ buf.drop (addrDiff e s)) rest with
          | error x =>
              rw [hs] at hrest
              show Except.error x = _ ↔ _
              exact hrest.trans (not_congr ⟨fun h => ⟨hle, fun _ => h⟩, fun h => h.2 hmod⟩)
          | ok lines =>
              rw [hs] at hrest
              have hin : AllInBounds (sectionAccesses (fun _ => true) buf.length rest) :=
                not_not.mp fun hn => absurd (hrest.mpr hn) (by simp)
              exact iff_of_false (fun h => by cases h) fun hn => hn ⟨hle, fun _ => hin⟩
        · rw [if_pos hmod]
          exact iff_of_false (fun h => by cases h) fun hn => hn ⟨hle, fun h => absurd h hmod⟩

theorem stop_overflow_iff (h : Htif) (mem : Bytes) :
    stop h mem = .error .overflow ↔ ¬ AllInBounds (stopAccesses (fun _ => true) h) := by
  by_cases hpos : h.sigLen = 0
  · rw [stop, stopAccesses, if_pos hpos, if_pos hpos]
    exact ⟨fun e => (by cases e), fun hn => (hn fun a ha => by cases ha).elim⟩
  · by_cases hmod : h.sigLen % 16 = 0
    · have hlen : (readMem mem h.sigAddr h.sigLen).length = h.sigLen := by simp [readMem]
      have hsec := stopSections_overflow_iff mem (readMem mem h.sigAddr h.sigLen) h.dataAddrs
      rw [hlen] at hsec
      rw [stopAccesses_inBounds hpos rfl hmod, ← hsec, stop, if_neg hpos, if_neg (not_not.mpr hmod)]
      dsimp only
      cases stopSections mem (readMem mem h.sigAddr h.sigLen) h.dataAddrs with
      | error x =>
          show (Except.error x : Except Exn Text) = .error .overflow ↔
            (Except.error x : Except Exn (List Text)) = .error .overflow
          rw [Except.error.injEq, Except.error.injEq]
      | ok lines => exact ⟨fun e => (by cases e), fun e => (by cases e)⟩
    · have hbuf : ¬ (!(fun _ : Nat => true) h.sigLen) = true := Bool.false_ne_true
      rw [stop, if_neg hpos, if_pos hmod, stopAccesses, if_neg hpos, if_neg hbuf, if_pos hmod,
        List.append_nil]
      exact ⟨fun e => (by cases e), fun hn => absurd (fills_inBounds.mpr (Nat.le_refl _)) hn⟩

/-- The sections in front of the first one without a buffer. -/
theorem sectionAccesses_inBounds {alloc : Nat → Bool} {size : Nat} {sections : List (Nat × Nat)}
    (hs : ∀ d ∈ sections, addrDiff d.2 d.1 % 16 = 0) :
    AllInBounds (sectionAccesses alloc size sections) ↔
      ∀ d ∈ sections.takeWhile (fun d => alloc (addrDiff d.2 d.1)), addrDiff d.2 d.1 ≤ size := by
  induction sections with
  | nil => exact iff_of_true (fun a ha => (nomatch ha)) fun d hd => (nomatch hd)
  | cons d rest ih =>
      obtain ⟨s, e⟩ := d
      obtain ⟨hd, hrest⟩ := List.forall_mem_cons.mp hs
      rw [sectionAccesses_cons, List.takeWhile_cons]
      cases alloc (addrDiff e s) with
      | false => exact iff_of_true nofun fun d hd => (nomatch hd)
      | true =>
          rw [if_pos rfl, List.forall_mem_cons, ih hrest, imp_iff_right rfl]
          exact and_congr_right fun _ => ⟨fun h => h hd, fun h _ => h⟩

/-- **When the dump stays inside its buffers**: there is no signature, no buffer for it, the assertion
    about its length ends the dump, or no section in front of the first one without a buffer is
    longer than the signature. -/
theorem stop_inBounds_iff (alloc : Nat → Bool) (h : Htif)
    (hdata : ∀ d ∈ h.dataAddrs, addrDiff d.2 d.1 % 16 = 0) :
    (∀ a ∈ stopAccesses alloc h, a.index < a.size) ↔
      h.sigLen = 0 ∨ alloc h.sigLen = false ∨ h.sigLen % 16 ≠ 0 ∨
        ∀ d ∈ h.dataAddrs.takeWhile (fun d => alloc (addrDiff d.2 d.1)),
          addrDiff d.2 d.1 ≤ h.sigLen := by
  show AllInBounds (stopAccesses alloc h) ↔ _
  by_cases hpos : h.sigLen = 0
  · rw [stopAccesses, if_pos hpos]
    exact iff_of_true (fun a ha => (nomatch ha)) (.inl hpos)
  · rw [or_iff_right hpos]
    cases halloc : alloc h.sigLen with
    | false =>
        rw [stopAccesses, if_neg hpos, halloc]
        exact iff_of_true (fun a ha => (nomatch ha)) (.inl rfl)
    | true =>
        by_cases hmod : h.sigLen % 16 = 0
        · rw [stopAccesses_inBounds hpos halloc hmod, sectionAccesses_inBounds hdata,
            or_iff_right (by decide), or_iff_right (not_not.mpr hmod)]
        · rw [stopAccesses, if_neg hpos, halloc, if_neg (by decide), if_pos hmod, List.append_nil]
          exact iff_of_true (fills_inBounds.mpr (Nat.le_refl _)) (.inr (.inl hmod))

/-- A signature of 32 bytes, two sections that are not longer, and one that ends in front of its
    start. -/
theorem stop_inBounds_short :
    (∀ d ∈ [(0x80010000, 0x80010020), (0x80020000, 0x80020010), (0x80030020, 0x80030000)],
      addrDiff d.2 d.1 % 16 = 0) ∧
    ∀ a ∈ stopAccesses vectorAlloc ⟨0x80001000, 32, [(0x80010000, 0x80010020),
      (0x80020000, 0x80020010), (0x80030020, 0x80030000)]⟩, a.index < a.size := by
  refine ⟨by decide, ?_⟩
  exact (stop_inBounds_iff vectorAlloc ⟨0x80001000, 32, [(0x80010000, 0x80010020),
    (0x80020000, 0x80020010), (0x80030020, 0x80030000)]⟩ (by decide)).mpr
      (.inr (.inr (.inr (by decide))))

/-- **A section of 32 bytes overruns** the buffer of a signature of 16. -/
theorem not_inBounds_long : (∀ d ∈ [(0x80010000, 0x80010020)], addrDiff d.2 d.1 % 16 = 0) ∧
    ¬ ∀ a ∈ stopAccesses vectorAlloc ⟨0x80001000, 16, [(0x80010000, 0x80010020)]⟩,
      a.index < a.size := by
  decide +kernel

end Difuzz.Signature
