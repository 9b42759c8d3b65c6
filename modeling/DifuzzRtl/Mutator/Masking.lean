/-
  File:      DifuzzRtl/Mutator/Masking.lean
  Subject:   Words replaced by `nop` (`rvMutator.make_nop`), and the interrupts of the others.

  * `RvMutator.makeNop` -- the input with the masked words replaced. The loop over the interrupts
    counts a masked word with the one instruction that it has now.
  * `SimInput.slices` -- the interrupts of each word.
  * `Masked` -- what masking should do; `Undrifted` -- when the count does no harm.
  * `makeNop_iff` -- the one holds exactly if the other does.
-/
import DifuzzRtl.Lib.Blocks
import DifuzzRtl.Mutator.SimInput

namespace Difuzz.Mutator

open Text Blocks

/-! ## 1. The code -/

def nop : Text := ['n', 'o', 'p']

/-- `Word(word.label, ["nop"])`, populated. -/
def nopWord (word : Word) (part : Part) : Except Exn Word :=
  Word.populate { label := word.label, insts := [nop] } Dict.empty part

def maskWords (part : Part) (target : List Word) (nopMask : List Bool) : Except Exn (List Word) :=
  (target.zip nopMask).mapM fun e => if e.2 then nopWord e.1 part else .ok e.1

/-- `[ints[k + j] for j in range(n)]`. -/
def intsFrom (ints : List Int) (k n : Nat) : Except Exn (List Int) :=
  (List.range n).mapM fun j =>
    match ints[k + j]? with
    | some i => .ok i
    | none => .error .index

/-- What is added to `new_ints` for a word. -/
def newInts (ints : List Int) (k : Nat) (mask : Bool) (word : Word) : Except Exn (List Int) :=
  if mask then .ok (List.replicate word.lenInsts 0) else intsFrom ints k word.lenInsts

/-- The loop over the masks, from the position `k` on. -/
def maskInts (ints : List Int) : Nat → List Bool → List Word → Except Exn (List Int)
  | k, mask :: nopMask, word :: newTarget => do
      let new ← newInts ints k mask word
      let rest ← maskInts ints (k + word.lenInsts) nopMask newTarget
      return new ++ rest
  | _, _, _ => .ok []

def SimInput.part (s : SimInput) : Part → List Word
  | .prefixPart => s.prefixWords
  | .mainPart => s.words
  | .suffixPart => s.suffixWords

/-- The input with the new words of the part. -/
def minInput (s : SimInput) (nopMask : List Bool) (newTarget : List Word) : Part → Except Exn SimInput
  | .prefixPart => .ok { s with prefixWords := newTarget }
  | .mainPart => do
      let ints ← maskInts s.ints 0 nopMask newTarget
      return { s with words := newTarget, ints }
  | .suffixPart => .ok { s with suffixWords := newTarget }

def RvMutator.makeNop (m : RvMutator) (s : SimInput) (nopMask : List Bool) (part : Part) :
    Except Exn (SimInput × List Int) :=
  if (s.part part).length = nopMask.length then do
    let newTarget ← maskWords part (s.part part) nopMask
    let minInput ← minInput s nopMask newTarget part
    let data ← m.getData s.dataSeed
    return (minInput, data)
  else .error .assertion

/-! ## 2. What masking should do -/

/-- The interrupts of each main word. -/
def SimInput.slices (s : SimInput) : List (List Int) := Blocks.slices (s.words.map (·.lenInsts)) s.ints

/-- The word that stands for a masked one. -/
def nopOf (word : Word) (part : Part) : Word :=
  { label := word.label, insts := [nop], populated := true,
    retInsts := [labelCol part word.label ++ ljust 42 nop] }

/-- The masked words are `nop` without an interrupt; the others are as they were, with their
    interrupts. -/
structure Masked (s s' : SimInput) (nopMask : List Bool) : Prop where
  others : s' = { s with words := s'.words, ints := s'.ints }
  length : s'.words.length = s.words.length
  ints : s'.ints.length = (s'.words.map (·.lenInsts)).sum
  kept : ∀ (i : Nat) (w : Word), s.words[i]? = some w → nopMask[i]? = some false →
    s'.words[i]? = some w ∧ s'.slices[i]? = s.slices[i]?
  masked : ∀ (i : Nat) (w : Word), s.words[i]? = some w → nopMask[i]? = some true →
    s'.words[i]? = some (nopOf w .mainPart) ∧ s'.slices[i]? = some [0]

/-- The number of instructions of a word after it was masked, or not. -/
def maskedLen (e : Word × Bool) : Nat := if e.2 then 1 else e.1.lenInsts

/-- **No unmasked word sees a drift**: the interrupts that stand where it starts when each masked word
    before it is counted with one instruction are its own. -/
def Undrifted (s : SimInput) (nopMask : List Bool) : Prop :=
  ∀ (i : Nat) (w : Word), s.words[i]? = some w → nopMask[i]? = some false →
    (s.ints.drop (((s.words.zip nopMask).take i).map maskedLen).sum).take w.lenInsts =
      (s.ints.drop ((s.words.take i).map (·.lenInsts)).sum).take w.lenInsts

/-! ## 3. The loops -/

theorem nopWord_eq (word : Word) (part : Part) : nopWord word part = .ok (nopOf word part) := by
  unfold nopWord Word.populate nopOf
  rw [if_pos (by simp [Word.operands])]
  simp [Word.labelText, labelCol, Word.popInst, Dict.empty]

theorem maskWords_eq (part : Part) (target : List Word) (nopMask : List Bool) :
    maskWords part target nopMask =
      .ok ((target.zip nopMask).map fun e => if e.2 then nopOf e.1 part else e.1) := by
  refine Except.mapM_eq fun e _ => ?_
  cases e.2 with
  | true => exact nopWord_eq e.1 part
  | false => rfl

/-- The comprehension is a slice, if all its positions are there. -/
theorem intsFrom_ok {ints : List Int} {k n : Nat} {r : List Int} :
    intsFrom ints k n = .ok r ↔ (ints.drop k).take n = r ∧ r.length = n := by
  have hget : ∀ j i, (match ints[k + j]? with
      | some i => Except.ok i
      | none => (.error .index : Except Exn Int)) = .ok i ↔ ints[k + j]? = some i := by
    intro j i
    cases ints[k + j]? <;> simp
  unfold intsFrom
  rw [Except.mapM_ok_iff]
  simp only [hget]
  constructor
  · intro h
    have hlen : r.length = n := by rw [← h.length_eq, List.length_range]
    refine ⟨List.ext_getElem? fun j => ?_, hlen⟩
    rw [List.getElem?_take, List.getElem?_drop]
    by_cases hj : j < n
    · have hj' : j < r.length := hlen ▸ hj
      rw [if_pos hj, List.getElem?_eq_getElem hj']
      have hrel := h.get (by rwa [List.length_range]) hj'
      simpa using hrel
    · rw [if_neg hj, List.getElem?_eq_none (by omega)]
  · intro h
    obtain ⟨rfl, hlen⟩ := h
    refine List.forall₂_iff_get.mpr ⟨by rw [List.length_range, hlen], fun j h₁ h₂ => ?_⟩
    rw [List.length_range] at h₁
    simp only [List.get_eq_getElem, List.getElem_range]
    have hdrop := List.getElem?_eq_getElem h₂
    rw [List.getElem?_take, if_pos h₁, List.getElem?_drop] at hdrop
    exact hdrop

/-- The interrupts that the loop gives a word, at the position where it counts it to start. -/
def maskedBlock (ints : List Int) (k : Nat) (mask : Bool) (word : Word) : List Int :=
  if mask then List.replicate word.lenInsts 0 else (ints.drop k).take word.lenInsts

theorem newInts_ok {ints : List Int} {k : Nat} {mask : Bool} {word : Word} {new : List Int} :
    newInts ints k mask word = .ok new ↔
      maskedBlock ints k mask word = new ∧ new.length = word.lenInsts := by
  unfold newInts maskedBlock
  cases mask with
  | false => exact intsFrom_ok
  | true =>
      simp only [if_true, Except.ok.injEq]
      refine ⟨fun h => ⟨h, ?_⟩, fun h => h.1⟩
      rw [← h, List.length_replicate]

/-- The interrupts of all words, in turn. -/
def maskedBlocks (ints : List Int) : Nat → List Bool → List Word → List (List Int)
  | k, mask :: nopMask, word :: newTarget =>
      maskedBlock ints k mask word :: maskedBlocks ints (k + word.lenInsts) nopMask newTarget
  | _, _, _ => []

/-- **The loop over the masks** succeeds if the blocks have the lengths of the words. -/
theorem maskInts_ok {ints : List Int} {nopMask : List Bool} {newTarget : List Word} {r : List Int}
    (hlen : nopMask.length = newTarget.length) (k : Nat) :
    maskInts ints k nopMask newTarget = .ok r ↔
      (maskedBlocks ints k nopMask newTarget).flatten = r ∧
        (maskedBlocks ints k nopMask newTarget).map List.length = newTarget.map (·.lenInsts) := by
  induction nopMask generalizing newTarget k r with
  | nil =>
      obtain rfl := List.length_eq_zero_iff.mp hlen.symm
      simp [maskInts, maskedBlocks]
  | cons mask nopMask ih =>
      cases newTarget with
      | nil => cases hlen
      | cons word newTarget =>
          rw [maskInts, Except.bind_ok]
          simp only [newInts_ok]
          rw [maskedBlocks, List.flatten_cons, List.map_cons, List.map_cons, List.cons.injEq]
          constructor
          · intro h
            obtain ⟨new, ⟨rfl, hl⟩, h⟩ := h
            obtain ⟨rest, hrest, h⟩ := Except.bind_ok.mp h
            obtain ⟨hflat, hmap⟩ := (ih (Nat.succ.inj hlen) _).mp hrest
            exact ⟨by rw [hflat, Except.ok.inj h], hl, hmap⟩
          · intro h
            obtain ⟨rfl, hl, hmap⟩ := h
            refine ⟨_, ⟨rfl, hl⟩, Except.bind_ok.mpr ⟨_, (ih (Nat.succ.inj hlen) _).mpr ⟨rfl, hmap⟩, rfl⟩⟩

theorem getElem?_maskedBlocks {ints : List Int} {nopMask : List Bool} {newTarget : List Word}
    (k : Nat) {i : Nat} {mask : Bool} {word : Word} (hm : nopMask[i]? = some mask)
    (hw : newTarget[i]? = some word) :
    (maskedBlocks ints k nopMask newTarget)[i]? =
      some (maskedBlock ints (k + ((newTarget.take i).map (·.lenInsts)).sum) mask word) := by
  induction nopMask generalizing newTarget k i with
  | nil => cases hm
  | cons mask' nopMask ih =>
      cases newTarget with
      | nil => cases hw
      | cons word' newTarget =>
          cases i with
          | zero =>
              cases hm
              cases hw
              rfl
          | succ i =>
              rw [maskedBlocks, List.getElem?_cons_succ, ih _ hm hw, List.take_succ_cons,
                List.map_cons, List.sum_cons, Nat.add_assoc]

theorem length_maskedBlocks {ints : List Int} {nopMask : List Bool} {newTarget : List Word}
    (hlen : nopMask.length = newTarget.length) (k : Nat) :
    (maskedBlocks ints k nopMask newTarget).length = newTarget.length := by
  induction nopMask generalizing newTarget k with
  | nil =>
      obtain rfl := List.length_eq_zero_iff.mp hlen.symm
      rfl
  | cons mask nopMask ih =>
      cases newTarget with
      | nil => cases hlen
      | cons word newTarget =>
          rw [maskedBlocks, List.length_cons, List.length_cons, ih (Nat.succ.inj hlen)]

/-! ## 4. The input -/

section Input

variable {m : RvMutator} {s s' : SimInput} {nopMask : List Bool} {data : List Int}

/-- The words after the masking. -/
def newTarget (s : SimInput) (nopMask : List Bool) : List Word :=
  (s.words.zip nopMask).map fun e => if e.2 then nopOf e.1 .mainPart else e.1

/-- The interrupts of these words, as the loop takes them. -/
def newBlocks (s : SimInput) (nopMask : List Bool) : List (List Int) :=
  maskedBlocks s.ints 0 nopMask (newTarget s nopMask)

theorem length_newTarget (hmask : s.words.length = nopMask.length) :
    (newTarget s nopMask).length = s.words.length := by
  rw [newTarget, List.length_map, List.length_zip, hmask, Nat.min_self]

theorem getElem?_newTarget {i : Nat} {w : Word} {mask : Bool} (hw : s.words[i]? = some w)
    (hm : nopMask[i]? = some mask) :
    (newTarget s nopMask)[i]? = some (if mask then nopOf w .mainPart else w) := by
  rw [newTarget, List.getElem?_map, List.getElem?_zip_eq_some (z := (w, mask)) |>.mpr ⟨hw, hm⟩]
  rfl

theorem map_lenInsts_newTarget (s : SimInput) (nopMask : List Bool) :
    (newTarget s nopMask).map (·.lenInsts) = (s.words.zip nopMask).map maskedLen := by
  rw [newTarget, List.map_map]
  refine List.map_congr_left fun e _ => ?_
  show Word.lenInsts (if e.2 then nopOf e.1 .mainPart else e.1) = maskedLen e
  unfold maskedLen
  cases e.2 <;> rfl

theorem makeNop_ok (hmask : s.words.length = nopMask.length) :
    m.makeNop s nopMask .mainPart = .ok (s', data) ↔
      (newBlocks s nopMask).map List.length = (newTarget s nopMask).map (·.lenInsts) ∧
        m.getData s.dataSeed = .ok data ∧
        s' = { s with words := newTarget s nopMask, ints := (newBlocks s nopMask).flatten } := by
  have hlen : nopMask.length = (newTarget s nopMask).length := by rw [length_newTarget hmask, hmask]
  have hpart : (s.part .mainPart).length = nopMask.length := hmask
  unfold RvMutator.makeNop
  rw [if_pos hpart, maskWords_eq, Except.bind_ok]
  constructor
  · intro h
    obtain ⟨target, htarget, h⟩ := h
    obtain rfl : newTarget s nopMask = target := Except.ok.inj htarget
    obtain ⟨input, hinput, h⟩ := Except.bind_ok.mp h
    obtain ⟨data', hdata, h⟩ := Except.bind_ok.mp h
    obtain ⟨ints, hints, hin⟩ := Except.bind_ok.mp hinput
    obtain ⟨rfl, hmap⟩ := (maskInts_ok hlen 0).mp hints
    have hout := Prod.mk.inj (Except.ok.inj h)
    rw [← hout.1, ← hout.2]
    exact ⟨hmap, hdata, (Except.ok.inj hin).symm⟩
  · intro h
    obtain ⟨hmap, hdata, rfl⟩ := h
    refine ⟨newTarget s nopMask, rfl, Except.bind_ok.mpr ⟨_, Except.bind_ok.mpr ⟨_,
      (maskInts_ok hlen 0).mpr ⟨rfl, hmap⟩, rfl⟩, Except.bind_ok.mpr ⟨data, hdata, rfl⟩⟩⟩

/-- The loop over the masks raises only where a comprehension does. -/
theorem maskInts_error {ints : List Int} {e : Exn} {nopMask : List Bool} :
    ∀ {target : List Word} {k : Nat}, maskInts ints k nopMask target = .error e → e = .index := by
  have hfrom : ∀ k n, intsFrom ints k n = .error e → e = .index := by
    intro k n h
    obtain ⟨j, _, h⟩ := Except.mapM_error h
    split at h
    · cases h
    · exact (Except.error.inj h).symm
  induction nopMask with
  | nil => exact fun h => (nomatch h)
  | cons mask nopMask ih =>
      intro target k h
      cases target with
      | nil => cases h
      | cons word target =>
          rw [maskInts, Except.bind_error] at h
          rcases h with h | ⟨new, _, h⟩
          · unfold newInts at h
            split at h
            · cases h
            · exact hfrom _ _ h
          · rcases Except.bind_error.mp h with h | ⟨others, _, h⟩
            · exact ih h
            · cases h

/-- **`make_nop` fails its assertion** only on a mask of another length than the part. -/
theorem makeNop_ne_assertion {part : Part} (hlen : (s.part part).length = nopMask.length) :
    m.makeNop s nopMask part ≠ .error .assertion := by
  intro h
  unfold RvMutator.makeNop at h
  rw [if_pos hlen, maskWords_eq, Except.bind_error] at h
  rcases h with h | ⟨target, _, h⟩
  · cases h
  rcases Except.bind_error.mp h with h | ⟨input, _, h⟩
  · cases part with
    | prefixPart => cases h
    | suffixPart => cases h
    | mainPart =>
        rcases Except.bind_error.mp h with h | ⟨ints, _, h⟩
        · cases maskInts_error h
        · cases h
  rcases Except.bind_error.mp h with h | ⟨data, _, h⟩
  · unfold RvMutator.getData at h
    split at h <;> cases h
  · cases h

/-- The parts keep their lengths. -/
theorem makeNop_lengths {part : Part} (h : m.makeNop s nopMask part = .ok (s', data)) (q : Part) :
    (s'.part q).length = (s.part q).length := by
  unfold RvMutator.makeNop at h
  split at h
  · rename_i hlen
    rw [maskWords_eq, Except.bind_ok] at h
    obtain ⟨target, htarget, h⟩ := h
    have hnew : target.length = (s.part part).length := by
      rw [← Except.ok.inj htarget, List.length_map, List.length_zip, hlen, Nat.min_self]
    obtain ⟨input, hinput, h⟩ := Except.bind_ok.mp h
    obtain ⟨_, _, h⟩ := Except.bind_ok.mp h
    cases h
    cases part with
    | prefixPart =>
        cases hinput
        cases q <;> first | exact hnew | rfl
    | suffixPart =>
        cases hinput
        cases q <;> first | exact hnew | rfl
    | mainPart =>
        obtain ⟨ints, _, hinput⟩ := Except.bind_ok.mp hinput
        cases hinput
        cases q <;> first | exact hnew | rfl
  · cases h

/-- The slice of a word, before the masking. -/
theorem getElem?_slices_words {i : Nat} {w : Word} (hw : s.words[i]? = some w) :
    s.slices[i]? = some ((s.ints.drop ((s.words.take i).map (·.lenInsts)).sum).take w.lenInsts) := by
  have hlen : (s.words.map (·.lenInsts))[i]? = some w.lenInsts := by rw [List.getElem?_map, hw]; rfl
  unfold SimInput.slices
  rw [getElem?_slices hlen, List.map_take]

/-- The slice has an interrupt for each instruction. -/
theorem length_slice (hints : s.ints.length = (s.words.map (·.lenInsts)).sum) {i : Nat} {w : Word}
    (hw : s.words[i]? = some w) :
    ((s.ints.drop ((s.words.take i).map (·.lenInsts)).sum).take w.lenInsts).length = w.lenInsts := by
  obtain ⟨hi, rfl⟩ := List.getElem?_eq_some_iff.mp hw
  have hsplit : (s.words.map (·.lenInsts)).sum = ((s.words.take i).map (·.lenInsts)).sum +
      (s.words[i].lenInsts + ((s.words.drop (i + 1)).map (·.lenInsts)).sum) := by
    conv_lhs => rw [← List.take_append_drop i s.words, ← List.getElem_cons_drop hi]
    rw [List.map_append, List.sum_append, List.map_cons, List.sum_cons]
  rw [List.length_take, List.length_drop]
  omega

/-- What the loop takes for a word. -/
theorem getElem?_newBlocks {i : Nat} {w : Word} {mask : Bool} (hw : s.words[i]? = some w)
    (hm : nopMask[i]? = some mask) :
    (newBlocks s nopMask)[i]? = some (if mask then [0] else
      (s.ints.drop (((s.words.zip nopMask).take i).map maskedLen).sum).take w.lenInsts) := by
  unfold newBlocks
  rw [getElem?_maskedBlocks 0 hm (getElem?_newTarget hw hm), Nat.zero_add, List.map_take,
    map_lenInsts_newTarget, ← List.map_take]
  cases mask <;> rfl

/-- **Masking keeps the interrupts aligned** exactly if no unmasked word sees a drift. -/
theorem makeNop_iff (hmask : s.words.length = nopMask.length)
    (hints : s.ints.length = (s.words.map (·.lenInsts)).sum) :
    (∃ s' data, m.makeNop s nopMask .mainPart = .ok (s', data) ∧ Masked s s' nopMask) ↔
      (∃ data, m.getData s.dataSeed = .ok data) ∧ Undrifted s nopMask := by
  constructor
  · intro h
    obtain ⟨s', data, hok, hmasked⟩ := h
    obtain ⟨hmap, hdata, rfl⟩ := (makeNop_ok hmask).mp hok
    refine ⟨⟨data, hdata⟩, fun i w hw hm => ?_⟩
    have hslice := (hmasked.kept i w hw hm).2
    rw [getElem?_slices_words hw] at hslice
    have hnew : (slices ((newTarget s nopMask).map (·.lenInsts)) (newBlocks s nopMask).flatten)[i]? = _ :=
      hslice
    rw [slices_flatten hmap, getElem?_newBlocks hw hm] at hnew
    exact Option.some.inj hnew
  · intro h
    obtain ⟨⟨data, hdata⟩, hdrift⟩ := h
    -- no comprehension runs out of the list: each block is as long as its word
    have hmap : (newBlocks s nopMask).map List.length = (newTarget s nopMask).map (·.lenInsts) := by
      have hlen : nopMask.length = (newTarget s nopMask).length := by
        rw [length_newTarget hmask, hmask]
      refine List.ext_getElem? fun i => ?_
      rw [List.getElem?_map, List.getElem?_map]
      by_cases hi : i < s.words.length
      · have hw := List.getElem?_eq_getElem hi
        have hm := List.getElem?_eq_getElem (hmask ▸ hi : i < nopMask.length)
        rw [getElem?_newBlocks hw hm, getElem?_newTarget hw hm]
        cases hmi : nopMask[i] with
        | true => rfl
        | false =>
            rw [hmi] at hm
            show some (List.length _) = some (s.words[i].lenInsts)
            rw [if_neg (by decide), hdrift i _ hw hm, length_slice hints hw]
      · have hblocks : (newBlocks s nopMask).length = (newTarget s nopMask).length :=
          length_maskedBlocks hlen 0
        rw [length_newTarget hmask] at hblocks
        have htarget : (newTarget s nopMask).length ≤ i := by
          rw [length_newTarget hmask]
          omega
        rw [List.getElem?_eq_none (by omega), List.getElem?_eq_none htarget]
        rfl
    refine ⟨_, data, (makeNop_ok hmask).mpr ⟨hmap, hdata, rfl⟩, rfl, length_newTarget hmask, ?_,
      fun i w hw hm => ⟨getElem?_newTarget hw hm, ?_⟩, fun i w hw hm => ⟨getElem?_newTarget hw hm, ?_⟩⟩
    · rw [List.length_flatten, hmap]
    · show (slices ((newTarget s nopMask).map (·.lenInsts)) (newBlocks s nopMask).flatten)[i]? = _
      rw [slices_flatten hmap, getElem?_newBlocks hw hm, getElem?_slices_words hw, ← hdrift i w hw hm]
      rfl
    · show (slices ((newTarget s nopMask).map (·.lenInsts)) (newBlocks s nopMask).flatten)[i]? = _
      rw [slices_flatten hmap, getElem?_newBlocks hw hm]
      rfl

end Input

namespace Demo

/-- A test of two words; the interrupt is that of the second one. -/
def twoWords (first : List String) : SimInput where
  prefixWords := []
  words :=
    [{ label := 0, insts := first.map (·.toList), populated := true,
       retInsts := wordLines (labelCol .mainPart 0) (first.map fun i => ljust 42 i.toList) },
     { label := 1, insts := ["add a1, a1, a1".toList], populated := true,
       retInsts := [labelCol .mainPart 1 ++ ljust 42 "add a1, a1, a1".toList] }]
  suffixWords := []
  ints := List.replicate first.length 0 ++ [4]
  dataSeed := 0
  template := .pM

def seeded : RvMutator := { RvMutator.new 1 1 with randomData := Dict.empty.set 0 [1], dataSeeds := [0] }

end Demo

/-- A masked word of one instruction leaves the interrupt of the next one where it is. -/
theorem makeNop_one :
    ∃ s' data, Demo.seeded.makeNop (Demo.twoWords ["add a0, a0, a0"]) [true, false] .mainPart =
      .ok (s', data) ∧ Masked (Demo.twoWords ["add a0, a0, a0"]) s' [true, false] := by
  refine (makeNop_iff (by decide) (by decide)).mpr ⟨⟨[1], by decide⟩, fun i w hw hm => ?_⟩
  match i with
  | 0 => cases hm
  | 1 =>
      cases hw
      decide
  | i + 2 => cases hw

/-- A masked word of two instructions is counted with one: the interrupt of the next one is lost. -/
theorem makeNop_two :
    ∃ s' data, Demo.seeded.makeNop (Demo.twoWords ["la a0, d_0_1", "lw a0, 0(a0)"]) [true, false]
        .mainPart = .ok (s', data) ∧
      (Demo.twoWords ["la a0, d_0_1", "lw a0, 0(a0)"]).slices = [[0, 0], [4]] ∧
      s'.slices = [[0], [0]] ∧
      ¬ Masked (Demo.twoWords ["la a0, d_0_1", "lw a0, 0(a0)"]) s' [true, false] := by
  refine ⟨_, [1], (makeNop_ok (by decide)).mpr ⟨by decide, by decide, rfl⟩, by decide, by decide,
    fun h => ?_⟩
  have hkept := (h.kept 1 _ rfl rfl).2
  revert hkept
  decide

end Difuzz.Mutator
