/-
  File:      DifuzzRtl/Signature/RoundTrip.lean
  Subject:   Signature files are read back, and both writers write the same text.

  * `Decodes` -- what the reader finds: the word of every output, and the words of every section in
    the order of their addresses.
  * `Sees` -- a memory of bytes that holds the words of a dictionary on some regions.
  * `saveSignature_decodes` -- the file of the RTL host with all six sections; the simulator writes the
    same text if no section is longer than the signature.
-/
import DifuzzRtl.Signature.Checker

namespace Difuzz.Signature

open Text Mutator

/-! ## 1. What is read -/

/-- The values that are read are the words of the memory. -/
structure Decodes (L : Layout) (memory : Words) (v : Values) : Prop where
  xregs : v.xregs = (List.range 32).map fun i => (rtlWord memory (L.output (regOutput 'x' i)) : Int)
  fregs : v.fregs = (List.range 32).map fun i => (rtlWord memory (L.output (regOutput 'f' i)) : Int)
  csrs : v.csrs = csrNames.map fun c => (rtlWord memory (L.output (csrOutput c)) : Int)
  data : v.data = (List.range 6).map fun i =>
    (List.range ((L.dataEnd i - L.dataStart i) / 8)).map fun k =>
      (rtlWord memory (L.dataStart i + 8 * k) : Int)

/-- The words of a region, as little endian bytes. -/
def Sees (isa : Bytes) (memory : Words) (start stop : Nat) : Prop :=
  ∀ a, start ≤ a → a < stop → 8 ∣ a → memory a = some (leWord isa a)

/-- The words of a section of whole lines, in the order of their addresses. -/
theorem sectionWords_eq (word : Nat → Nat) {s e : Nat} (hs : 16 ∣ s) (he : 16 ∣ e) :
    sectionWords word (s, e) = (List.range ((e - s) / 8)).map fun k => (word (s + 8 * k) : Int) := by
  obtain ⟨a, rfl⟩ := hs
  obtain ⟨b, rfl⟩ := he
  have hlines : (16 * b - 16 * a) / 16 = b - a := by omega
  have hwords : (16 * b - 16 * a) / 8 = 2 * (b - a) := by omega
  have hpairs : ∀ n, ((List.range n).map fun k =>
      pairWords (word (16 * a + 16 * k), word (16 * a + 16 * k + 8))).flatten =
      (List.range (2 * n)).map fun k => (word (16 * a + 8 * k) : Int) := by
    intro n
    induction n with
    | zero => rfl
    | succ n ih =>
        -- the last line has the last two words
        have hlo : 16 * a + 16 * n = 16 * a + 8 * (2 * n) := by omega
        have hhi : 16 * a + 16 * n + 8 = 16 * a + 8 * (2 * n + 1) := by omega
        have hlast : pairWords (word (16 * a + 16 * n), word (16 * a + 16 * n + 8)) =
            [(word (16 * a + 8 * (2 * n)) : Int), (word (16 * a + 8 * (2 * n + 1)) : Int)] := by
          rw [hhi, hlo]
          rfl
        rw [show 2 * (n + 1) = 2 * n + 1 + 1 by omega, List.range_succ, List.range_succ,
          List.range_succ, List.map_append, List.flatten_append, ih, List.map_append, List.map_append,
          List.append_assoc]
        exact congrArg _ ((List.append_nil _).trans hlast)
  rw [sectionWords, wordPairs, List.map_map, hwords, ← hpairs (b - a), hlines]
  rfl

section RoundTrip

variable {L : Layout} {symbols : Symbols} {memory : Words}

/-- The words of a section are present. -/
theorem sections_present (h : L.Placed symbols)
    (hdata : ∀ i < 6, Present memory (L.dataStart i) (L.dataEnd i)) :
    ∀ d ∈ L.sections, 16 ∣ d.1 ∧ 16 ∣ d.2 ∧ Present memory d.1 d.2 := by
  intro d hd
  obtain ⟨i, hi, rfl⟩ := List.mem_map.mp hd
  have hi := List.mem_range.mp hi
  obtain ⟨hs, he, -⟩ := h.dataAligned i hi
  exact ⟨hs, he, hdata i hi⟩

theorem pairs_rtlWord_lt (h : L.Placed symbols) (hsig : Present memory L.sigStart L.sigEnd)
    (hdata : ∀ i < 6, Present memory (L.dataStart i) (L.dataEnd i)) :
    ∀ p ∈ L.pairs (rtlWord memory), p.1 < 2 ^ 64 ∧ p.2 < 2 ^ 64 := by
  intro p hp
  rcases List.mem_append.mp hp with hp | hp
  · exact hsig.wordPairs_lt h.sigAligned.1 p hp
  · obtain ⟨l, hl, hpl⟩ := List.mem_flatten.mp hp
    obtain ⟨d, hd, rfl⟩ := List.mem_map.mp hl
    obtain ⟨hs, -, hpresent⟩ := sections_present h hdata d hd
    exact hpresent.wordPairs_lt hs p hpl

theorem values_decode (h : L.Placed symbols) :
    Decodes L memory (L.values (rtlWord memory) (L.sections.map (sectionWords (rtlWord memory)))) where
  xregs := rfl
  fregs := rfl
  csrs := rfl
  data := by
    show L.sections.map (sectionWords (rtlWord memory)) = _
    rw [Layout.sections, List.map_map]
    refine List.map_congr_left fun i hi => ?_
    obtain ⟨hs, he, -⟩ := h.dataAligned i (List.mem_range.mp hi)
    exact sectionWords_eq _ hs he

/-- The pairs of a region are those of the bytes that see it. -/
theorem wordPairs_sees {isa : Bytes} {start stop : Nat} (hs : 16 ∣ start)
    (h : Sees isa memory start stop) :
    wordPairs (rtlWord memory) start (stop - start) = wordPairs (leWord isa) start (stop - start) := by
  have hword : ∀ a, start ≤ a → a < stop → 8 ∣ a → rtlWord memory a = leWord isa a := by
    intro a hlo hhi ha
    unfold rtlWord
    rw [h a hlo hhi ha]
    rfl
  unfold wordPairs
  refine List.map_congr_left fun k hk => ?_
  have hk := List.mem_range.mp hk
  rw [hword _ (by omega) (by omega) (by omega), hword _ (by omega) (by omega) (by omega)]

/-- **Signature files decode to the memory they were written from.** The file of `save_signature` is
    written and read without an exception, and shows the outputs and the data. The simulator writes
    the same text from the same memory, if no section is longer than the signature. -/
theorem saveSignature_decodes (h : L.Placed symbols) (hsig : Present memory L.sigStart L.sigEnd)
    (hdata : ∀ i < 6, Present memory (L.dataStart i) (L.dataEnd i)) :
    ∃ file ix v, saveSignature memory L.sigStart L.sigEnd L.sections = .ok file ∧
      readSymbols symbols = .ok ix ∧ readSig file ix = .ok v ∧ Decodes L memory v ∧
      ∀ isa, Sees isa memory L.sigStart L.sigEnd →
        (∀ i < 6, Sees isa memory (L.dataStart i) (L.dataEnd i)) →
        L.sigEnd < 2 ^ 64 → (∀ i < 6, L.dataEnd i < 2 ^ 64) →
        (∀ i < 6, L.dataEnd i - L.dataStart i ≤ L.sigEnd - L.sigStart) →
        stop (loadProgram symbols) isa = .ok file := by
  obtain ⟨hs, he, hle⟩ := h.sigAligned
  refine ⟨_, _, _, saveSignature_eq hs he hsig (sections_present h hdata), h.readSymbols,
    h.readSig (pairs_rtlWord_lt h hsig hdata), values_decode h, ?_⟩
  intro isa hseesSig hseesData hlt hdlt hlen
  have hof : L.Of symbols :=
    { sigBegin := h.sigBegin
      sigEnd := h.sigEnd
      outputs := h.outputs
      data := h.data
      sigAligned := ⟨hs, he, hle, hlt⟩
      inside := h.inside
      dataAligned := fun i hi => by
        obtain ⟨hds, hde, hdle⟩ := h.dataAligned i hi
        exact ⟨hds, hde, hdle, hdlt i hi, hlen i hi⟩ }
  have hsections : sectionPairs (rtlWord memory) L.sections = sectionPairs (leWord isa) L.sections := by
    refine congrArg List.flatten (List.map_congr_left fun d hd => ?_)
    obtain ⟨i, hi, rfl⟩ := List.mem_map.mp hd
    have hi := List.mem_range.mp hi
    exact wordPairs_sees (h.dataAligned i hi).1 (hseesData i hi)
  rw [hof.stop isa, Layout.pairs, wordPairs_sees hs hseesSig, hsections]

end RoundTrip

/-- Every word of the memory is its own address. -/
def addressBytes : Bytes := fun x => Fin.ofNat 256 (x / 8 * 8 / 256 ^ (x % 8))

def addressWords : Words := fun a => some (leWord addressBytes a)

theorem present_address (start stop : Nat) : Present addressWords start stop :=
  fun a _ _ _ => ⟨_, leWord_lt addressBytes a, rfl⟩

/-- Sections of 512 bytes, which are not longer than the signature; each is read from its first
    address on. -/
theorem saveSignature_decodes_dense :
    ∃ file ix v, saveSignature addressWords (denseLayout 512).sigStart (denseLayout 512).sigEnd
        (denseLayout 512).sections = .ok file ∧
      readSymbols (denseLayout 512).symbols = .ok ix ∧ readSig file ix = .ok v ∧
      Decodes (denseLayout 512) addressWords v ∧
      v.data.map (·.take 2) = [[0x80002000, 0x80002008], [0x80002200, 0x80002208],
        [0x80002400, 0x80002408], [0x80002600, 0x80002608], [0x80002800, 0x80002808],
        [0x80002a00, 0x80002a08]] ∧
      stop (loadProgram (denseLayout 512).symbols) addressBytes = .ok file := by
  have hof := denseLayout_of (.inr rfl)
  obtain ⟨file, ix, v, hfile, hix, hv, hdec, hstop⟩ := saveSignature_decodes hof.placed
    (present_address _ _) fun i _ => present_address ((denseLayout 512).dataStart i)
      ((denseLayout 512).dataEnd i)
  refine ⟨file, ix, v, hfile, hix, hv, hdec, ?_, ?_⟩
  · rw [hdec.data]
    decide +kernel
  · exact hstop addressBytes (fun _ _ _ _ => rfl) (fun _ _ _ _ _ _ => rfl) hof.sigAligned.2.2.2
      (fun i hi => (hof.dataAligned i hi).2.2.2.1) fun i hi => (hof.dataAligned i hi).2.2.2.2

end Difuzz.Signature
