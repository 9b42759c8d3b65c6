/-
  File:      DifuzzRtl/Mutator/Sections.lean
  Subject:   The data sections that `process` writes, for sections of any size.

  A section of `2h` words is `h` lines of sixteen bytes. The first two and the last two of them have no
  label: the labels of the section are `d_n_0` to `d_n_(h-5)`, and label `k` stands at byte `32 + 16k`.

  * `sectionText` -- the lines of a section; `NamesSection` -- a line of a template that is followed by
    them (`process_section`).
  * `dwordBytes`, `labelOffset` -- the bytes that a line of data takes, and where a label stands.
  * `sectionText_layout` -- the labels of a section, their places, and the size of the section.
-/
import DifuzzRtl.Mutator.Assembly

namespace Difuzz.Mutator

open Text

/-! ## 1. Sections -/

/-- The lines of a section, out of six. -/
def sectionText (data : List Int) (n : Nat) : Except Exn (List Text) :=
  let size := data.length / 6
  sectionLines data n (n * size) (n * size + size) 0 (pairs (n * size) (n * size + size))

/-- A line of a template that names a section and no other place. -/
structure NamesSection (n : Nat) (line : Text) : Prop where
  named : contains (sectionName n) line = true
  only : ∀ m < 6, m ≠ n → contains (sectionName m) line = false
  noMark : ∀ mark ∈ ["_fuzz_prefix:", "_fuzz_main:", "_fuzz_suffix:"], contains mark.toList line = false

/-- The lines of the templates are of this kind. -/
theorem namesSection_label : ∀ n < 6, NamesSection n (sectionName n ++ [':', '\n']) := by
  have h : ∀ n < 6, contains (sectionName n) (sectionName n ++ [':', '\n']) = true ∧
      (∀ m < 6, m ≠ n → contains (sectionName m) (sectionName n ++ [':', '\n']) = false) ∧
      ∀ mark ∈ ["_fuzz_prefix:", "_fuzz_main:", "_fuzz_suffix:"],
        contains mark.toList (sectionName n ++ [':', '\n']) = false := by
    decide +kernel
  exact fun n hn => ⟨(h n hn).1, (h n hn).2.1, (h n hn).2.2⟩

theorem flatten_single {α : Type} {l : List Nat} {n : Nat} {xs : List α} {f : Nat → List α}
    (hl : l.Nodup) (hn : n ∈ l) (hf : f n = xs) (hne : ∀ m ∈ l, m ≠ n → f m = []) :
    (l.map f).flatten = xs := by
  induction l with
  | nil => cases hn
  | cons m l ih =>
      rw [List.nodup_cons] at hl
      rw [List.map_cons, List.flatten_cons]
      rcases List.mem_cons.mp hn with rfl | hn
      · have hrest : (l.map f).flatten = [] := by
          rw [List.flatten_eq_nil_iff]
          intro ys hys
          obtain ⟨k, hk, rfl⟩ := List.mem_map.mp hys
          exact hne k (List.mem_cons_of_mem _ hk) fun e => hl.1 (e ▸ hk)
        rw [hf, hrest, List.append_nil]
      · rw [hne m List.mem_cons_self fun e => hl.1 (e ▸ hn), List.nil_append]
        exact ih hl.2 hn fun k hk => hne k (List.mem_cons_of_mem _ hk)

/-- **A section stands right behind the line that names it.** -/
theorem process_section {s : SimInput} {data : List Int} {template text : List Text} {ints : List Int}
    (h : process s data template 6 = .ok (text, ints)) {n : Nat} (hn : n < 6) {line : Text}
    (hline : line ∈ template) (hnames : NamesSection n line) :
    ∃ lines, sectionText data n = .ok lines ∧ line :: lines <:+: text := by
  -- the block of the line is a block of the text
  have hblock : ∃ p i x block, expandLine p i x data (data.length / 6) 6 line = .ok block ∧
      block <:+: text := by
    unfold process at h
    dsimp only at h
    split at h
    · cases h
    split at h
    · cases h
    obtain ⟨p, -, h⟩ := Except.bind_ok.mp h
    obtain ⟨i, -, h⟩ := Except.bind_ok.mp h
    obtain ⟨x, -, h⟩ := Except.bind_ok.mp h
    obtain ⟨ints', -, h⟩ := Except.bind_ok.mp h
    obtain ⟨blocks, hblocks, h⟩ := Except.bind_ok.mp h
    have htext : blocks.flatten = text := (Prod.mk.inj (Except.ok.inj h)).1
    obtain ⟨block, hmem, hb⟩ := Forall₂.mem_left (Except.mapM_ok_iff.mp hblocks) hline
    exact ⟨p, i, x, block, hb, htext ▸ List.infix_of_mem_flatten hmem⟩
  obtain ⟨p, i, x, block, hb, hinfix⟩ := hblock
  obtain ⟨bs, hbs, hb⟩ := Except.bind_ok.mp hb
  have hput : ∀ mark ∈ ["_fuzz_prefix:", "_fuzz_main:", "_fuzz_suffix:"], ∀ is : List Text,
      (if contains mark.toList line then is.map (· ++ [';', '\n']) else []) = [] := fun mark hm is => by
    rw [hnames.noMark mark hm]
    rfl
  have hblock : line :: bs.flatten = block := by
    have heq := Except.ok.inj hb
    beta_reduce at heq
    rw [hput _ (by simp), hput _ (by simp), hput _ (by simp)] at heq
    exact heq
  have hall := Except.mapM_ok_iff.mp hbs
  obtain ⟨lines, -, hlines⟩ := Forall₂.mem_left hall (List.mem_range.mpr hn)
  rw [if_pos hnames.named] at hlines
  refine ⟨lines, hlines, ?_⟩
  have hmap : bs = (List.range 6).map fun m => if m = n then lines else [] := by
    refine Except.ok.inj (hbs.symm.trans (Except.mapM_eq fun m hm => ?_))
    by_cases hmn : m = n
    · rw [hmn, if_pos hnames.named, if_pos rfl]
      exact hlines
    · rw [hnames.only m (List.mem_range.mp hm) hmn, if_neg hmn]
      rfl
  have hflat : bs.flatten = lines := by
    rw [hmap]
    exact flatten_single List.nodup_range (List.mem_range.mpr hn) (if_pos rfl) fun m _ hne => if_neg hne
  rw [← hflat, hblock]
  exact hinfix

/-! ## 2. The lines of a section -/

/-- What a row of a section of `h` rows has in front. -/
def rowLabel (n h j : Nat) : Text := if 2 ≤ j ∧ j + 2 < h then dataLabel n (j - 2) ++ [':'] else []

/-- A line is a row of a section. -/
def IsRow (n h j : Nat) (line : Text) : Prop := ∃ a b, line = dataLine (rowLabel n h j) a b

/-- The loop writes the rows from `j` on; its counter is the number of labelled rows before. -/
theorem sectionLines_rows {data : List Int} {n start h : Nat} (hdata : start + 2 * h ≤ data.length)
    (hh : 4 ≤ h) (m j : Nat) (hj : j + m = h) :
    ∃ lines, sectionLines data n start (start + 2 * h) (min j (h - 2) - 2)
        ((List.range' j m).map (start + 2 * ·)) = .ok lines ∧
      List.Forall₂ (IsRow n h) (List.range' j m) lines := by
  induction m generalizing j with
  | zero => exact ⟨[], rfl, .nil⟩
  | succ m ih =>
      obtain ⟨lines, hl, hrows⟩ := ih (j + 1) (by omega)
      have ha : data[start + 2 * j]? = some data[start + 2 * j] := List.getElem?_eq_getElem (by omega)
      have hb : data[start + 2 * j + 1]? = some data[start + 2 * j + 1] :=
        List.getElem?_eq_getElem (by omega)
      have hiff : (start + 2 < start + 2 * j ∧ start + 2 * j + 4 < start + 2 * h) ↔
          (2 ≤ j ∧ j + 2 < h) := by omega
      rw [List.range'_succ, List.map_cons, sectionLines, ha, hb]
      dsimp only
      by_cases hlab : 2 ≤ j ∧ j + 2 < h
      · have hk : min j (h - 2) - 2 + 1 = min (j + 1) (h - 2) - 2 := by omega
        have hk' : min j (h - 2) - 2 = j - 2 := by omega
        rw [if_pos (hiff.mpr hlab), hk, hl]
        refine ⟨_, rfl, .cons ⟨data[start + 2 * j], data[start + 2 * j + 1], ?_⟩ hrows⟩
        rw [rowLabel, if_pos hlab, hk']
      · have hk : min j (h - 2) - 2 = min (j + 1) (h - 2) - 2 := by omega
        rw [if_neg (fun hc => hlab (hiff.mp hc)), hk, hl]
        refine ⟨_, rfl, .cons ⟨data[start + 2 * j], data[start + 2 * j + 1], ?_⟩ hrows⟩
        rw [rowLabel, if_neg hlab]

theorem pairs_even (start h : Nat) :
    pairs start (start + 2 * h) = (List.range' 0 h).map (start + 2 * ·) := by
  have hlen : (start + 2 * h - start + 1) / 2 = h := by omega
  rw [pairs, hlen]
  refine List.ext_getElem (by simp) fun i h₁ h₂ => ?_
  simp

/-- The rows of a section of an even number of words. -/
theorem sectionText_rows {data : List Int} {n h : Nat} (hsize : data.length / 6 = 2 * h) (hh : 4 ≤ h)
    (hn : n < 6) :
    ∃ lines, sectionText data n = .ok lines ∧ List.Forall₂ (IsRow n h) (List.range' 0 h) lines := by
  have hlast : n * (2 * h) + 2 * h ≤ data.length := by
    have hle : (n + 1) * (data.length / 6) ≤ 6 * (data.length / 6) := Nat.mul_le_mul_right _ (by omega)
    rw [hsize, Nat.succ_mul] at hle
    omega
  have hrows := sectionLines_rows (n := n) hlast hh h 0 (Nat.zero_add h)
  rw [← pairs_even] at hrows
  unfold sectionText
  rw [hsize]
  exact hrows

/-! ## 3. Labels and bytes -/

/-- The bytes that a line of data takes: eight for each of its words. -/
def dwordBytes (line : Text) : Nat :=
  if contains ".dword".toList line then 8 * (split [','] line).length else 0

/-- The offset of a label, from that of the first line. -/
def labelOffset (name : Text) : Nat → List Text → Option Nat
  | _, [] => none
  | pos, line :: lines =>
      if definedLabel line = some name then some pos
      else labelOffset name (pos + dwordBytes line) lines

theorem dataLabel_injective {n k n' k' : Nat} (h : dataLabel n k = dataLabel n' k') : n = n' ∧ k = k' := by
  have hdig : ∀ n k, dataLabel n k = ['d', '_'] ++ (digits 10 n ++ '_' :: digits 10 k) := fun n k => by
    simp [dataLabel]
  rw [hdig, hdig, List.append_cancel_left_eq] at h
  have hno : ∀ n, '_' ∉ digits 10 n := fun n => not_mem_digits (by decide) n
  have hfst : digits 10 n = digits 10 n' := by
    have htake := congrArg (List.takeWhile (· != '_')) h
    rwa [takeWhile_mark (hno n), takeWhile_mark (hno n')] at htake
  rw [hfst, List.append_cancel_left_eq] at h
  have hval : ∀ a b, digits 10 a = digits 10 b → a = b := fun a b e => by
    have hv := congrArg (digitsValue 10 0) e
    rw [digitsValue_digits (by decide) (by decide), digitsValue_digits (by decide) (by decide)] at hv
    exact Option.some.inj hv
  exact ⟨hval _ _ hfst, hval _ _ (List.cons.inj h).2⟩

theorem comma_not_mem_formatInt (v : Int) : ',' ∉ formatInt 16 16 v := by
  have hd : ∀ n, ',' ∉ digits 16 n := fun n =>
    (allDigits_digits (by decide) (by decide)).not_mem (by decide)
  cases v with
  | ofNat n => simp [formatInt, hd n]
  | negSucc n => simp [formatInt, hd (n + 1)]

/-- **A line of data takes sixteen bytes.** -/
theorem dwordBytes_dataLine {label : Text} (hl : ',' ∉ label) (a b : Int) :
    dwordBytes (dataLine label a b) = 16 := by
  have hsplit : dataLine label a b = (ljust 16 label ++ ".dword 0x".toList ++ formatInt 16 16 a) ++
      ([','] ++ (" 0x".toList ++ formatInt 16 16 b ++ ['\n'])) := by
    simp [dataLine]
  have hx : ',' ∉ ljust 16 label ++ ".dword 0x".toList ++ formatInt 16 16 a := by
    simp [ljust, hl, comma_not_mem_formatInt]
  have hy : ',' ∉ " 0x".toList ++ formatInt 16 16 b ++ ['\n'] := by
    simp [comma_not_mem_formatInt]
  have hword : contains ".dword".toList (dataLine label a b) = true := by
    refine contains_iff.mpr ⟨ljust 16 label, " 0x".toList ++ formatInt 16 16 a ++ ", 0x".toList ++
      formatInt 16 16 b ++ ['\n'], ?_⟩
    simp [dataLine]
  have hpieces : (split [','] (dataLine label a b)).length = 2 := by
    have h₁ := split_append_sep (x := []) (y := []) (u := " 0x".toList ++ formatInt 16 16 b ++ ['\n'])
      List.not_mem_nil hx
    have h₂ := split_of_not_mem (x := []) (y := []) hy
    rw [List.nil_append] at h₁ h₂
    rw [hsplit, h₁, h₂]
    rfl
  rw [dwordBytes, if_pos hword, hpieces]

theorem comma_not_mem_rowLabel (n h j : Nat) : ',' ∉ rowLabel n h j := by
  have hd : ∀ n, ',' ∉ digits 10 n := fun n => not_mem_digits (by decide) n
  unfold rowLabel
  split
  · simp [dataLabel, hd]
  · simp

theorem definedLabel_row (n h j : Nat) (a b : Int) : definedLabel (dataLine (rowLabel n h j) a b) =
    if 2 ≤ j ∧ j + 2 < h then some (dataLabel n (j - 2)) else none := by
  unfold rowLabel
  split
  · exact definedLabel_dataLine n (j - 2) a b
  · exact definedLabel_dataLine_nil a b

/-- A label stands at its row. -/
theorem labelOffset_rows {n h k : Nat} (hk : k + 4 < h) {m j : Nat} {lines : List Text}
    (hrows : List.Forall₂ (IsRow n h) (List.range' j m) lines) (hj : j ≤ k + 2) (hm : k + 2 < j + m) :
    labelOffset (dataLabel n k) (16 * j) lines = some (32 + 16 * k) := by
  induction m generalizing j lines with
  | zero => omega
  | succ m ih =>
      rw [List.range'_succ] at hrows
      cases hrows with
      | cons hrow hrest =>
          obtain ⟨a, b, rfl⟩ := hrow
          rw [labelOffset, definedLabel_row, dwordBytes_dataLine (comma_not_mem_rowLabel n h j)]
          by_cases he : j = k + 2
          · subst he
            have hlab : 2 ≤ k + 2 ∧ k + 2 + 2 < h := ⟨by omega, by omega⟩
            rw [if_pos hlab, Nat.add_sub_cancel, if_pos rfl]
            exact congrArg some (by omega)
          · rw [if_neg]
            · have hnext : 16 * j + 16 = 16 * (j + 1) := by omega
              rw [hnext]
              exact ih hrest (by omega) (by omega)
            · split
              · intro hl
                have hkj := (dataLabel_injective (Option.some.inj hl)).2
                omega
              · exact fun hl => (nomatch hl)

theorem filterMap_range' {α : Type} (f : Nat → Option α) (g : Nat → α) (j m : Nat)
    (h : ∀ i, j ≤ i → i < j + m → f i = some (g i)) :
    (List.range' j m).filterMap f = (List.range' j m).map g := by
  rw [← List.filterMap_eq_map]
  refine List.filterMap_congr fun i hi => ?_
  obtain ⟨t, ht, rfl⟩ := List.mem_range'.mp hi
  simpa using h (j + 1 * t) (by omega) (by omega)

/-- The labels of the rows, in their order. -/
theorem labels_rows {n h : Nat} (hh : 4 ≤ h) {lines : List Text}
    (hrows : List.Forall₂ (IsRow n h) (List.range' 0 h) lines) :
    lines.filterMap definedLabel = (List.range (h - 4)).map (dataLabel n) := by
  let f : Nat → Option Text := fun j => if 2 ≤ j ∧ j + 2 < h then some (dataLabel n (j - 2)) else none
  have hmap : lines.filterMap definedLabel = (List.range' 0 h).filterMap f := by
    clear hh
    generalize List.range' 0 h = js at hrows
    induction hrows with
    | nil => rfl
    | cons hrow _ ih =>
        obtain ⟨a, b, rfl⟩ := hrow
        rw [List.filterMap_cons, List.filterMap_cons, definedLabel_row, ih]
  have hsplit : List.range' 0 h = List.range' 0 2 ++ (List.range' 2 (h - 4) ++ List.range' (h - 2) 2) := by
    have h₁ := @List.range'_append 2 (h - 4) 2 1
    have h₂ := @List.range'_append 0 2 (h - 4 + 2) 1
    have e₁ : 2 + 1 * (h - 4) = h - 2 := by omega
    have e₂ : 2 + (h - 4 + 2) = h := by omega
    rw [e₁] at h₁
    rw [h₁, show (2 : Nat) = 0 + 1 * 2 from rfl, h₂, e₂]
  have hnone : ∀ j m, (∀ i, j ≤ i → i < j + m → f i = none) → (List.range' j m).filterMap f = [] := by
    intro j m hf
    rw [List.filterMap_eq_nil_iff]
    intro i hi
    obtain ⟨t, ht, rfl⟩ := List.mem_range'.mp hi
    exact hf _ (by omega) (by omega)
  rw [hmap, hsplit, List.filterMap_append, List.filterMap_append,
    hnone 0 2 (fun i _ hi => if_neg (by omega)), hnone (h - 2) 2 (fun i hi _ => if_neg (by omega)),
    filterMap_range' f (fun j => dataLabel n (j - 2)) 2 (h - 4) (fun i hi hi' => if_pos (by omega)),
    List.nil_append, List.append_nil]
  refine List.ext_getElem (by simp) fun i h₁ h₂ => ?_
  simp

/-- **The layout of a section**: its labels, their places and its size. -/
theorem sectionText_layout {data : List Int} {n h : Nat} (hsize : data.length / 6 = 2 * h) (hh : 4 ≤ h)
    (hn : n < 6) : ∃ lines, sectionText data n = .ok lines ∧
      lines.filterMap definedLabel = (List.range (h - 4)).map (dataLabel n) ∧
      (∀ k < h - 4, labelOffset (dataLabel n k) 0 lines = some (32 + 16 * k)) ∧
      (lines.map dwordBytes).sum = 16 * h := by
  obtain ⟨lines, hl, hrows⟩ := sectionText_rows hsize hh hn
  refine ⟨lines, hl, labels_rows hh hrows, fun k hk => ?_, ?_⟩
  · exact labelOffset_rows (j := 0) (by omega) hrows (Nat.zero_le _) (by omega)
  · have hsum : ∀ {js : List Nat} {lines : List Text}, List.Forall₂ (IsRow n h) js lines →
        (lines.map dwordBytes).sum = 16 * js.length := by
      intro js lines hrows
      induction hrows with
      | nil => rfl
      | cons hrow _ ih =>
          obtain ⟨a, b, rfl⟩ := hrow
          rw [List.map_cons, List.sum_cons, ih, dwordBytes_dataLine (comma_not_mem_rowLabel n h _),
            List.length_cons]
          omega
    rw [hsum hrows, List.length_range']

end Difuzz.Mutator
