/-
  File:      DifuzzRtl/Lib/Blocks.lean
  Subject:   Programs of blocks, and what is left of them when the silent blocks are deleted.

  * `slices` -- values attached to the lines of consecutive blocks.
  * `rank`, `delete` -- the place of a block among those that are kept, and the program of these;
    a reference to a deleted block goes to the first kept block after it, or to the end.
  * `Visits` -- the lines that an execution visits, for any way to choose where it goes.
  * `visits_delete` -- deletion leaves them as they are.
-/
import Mathlib.Data.List.Count
import Mathlib.Logic.Function.Iterate
import Mathlib.Algebra.GroupWithZero.Nat

namespace Difuzz.Blocks

variable {α : Type}

/-! ## 1. Values of consecutive blocks -/

/-- The values of each block, for blocks of these lengths. -/
def slices : List Nat → List α → List (List α)
  | [], _ => []
  | n :: ns, vals => vals.take n :: slices ns (vals.drop n)

theorem length_slices (ns : List Nat) (vals : List α) : (slices ns vals).length = ns.length := by
  induction ns generalizing vals with
  | nil => rfl
  | cons n ns ih => rw [slices, List.length_cons, List.length_cons, ih]

theorem getElem?_slices {ns : List Nat} {vals : List α} {i n : Nat} (h : ns[i]? = some n) :
    (slices ns vals)[i]? = some ((vals.drop (ns.take i).sum).take n) := by
  induction ns generalizing vals i with
  | nil => cases h
  | cons m ns ih =>
      cases i with
      | zero =>
          cases h
          rfl
      | succ i =>
          rw [slices, List.getElem?_cons_succ, ih h, List.drop_drop, List.take_succ_cons, List.sum_cons]

/-- Values that are put together from blocks of these lengths. -/
theorem slices_flatten {ns : List Nat} {bs : List (List α)} (h : bs.map List.length = ns) :
    slices ns bs.flatten = bs := by
  subst h
  induction bs with
  | nil => rfl
  | cons b bs ih =>
      rw [List.map_cons, slices, List.flatten_cons, List.take_left, List.drop_left, ih]

/-- The values of the blocks that are kept. -/
def keptSlices {β : Type} (keep : β → Bool) (len : β → Nat) : List β → List α → List (List α)
  | [], _ => []
  | b :: l, vals =>
      if keep b then vals.take (len b) :: keptSlices keep len l (vals.drop (len b))
      else keptSlices keep len l (vals.drop (len b))

section Kept

variable {β : Type} {keep : β → Bool} {len : β → Nat}

theorem flatten_keptSlices_nil (l : List β) : (keptSlices keep len l ([] : List α)).flatten = [] := by
  induction l with
  | nil => rfl
  | cons b l ih =>
      rw [keptSlices, List.take_nil, List.drop_nil]
      split
      · exact ih
      · exact ih

/-- **Each kept block has its own values** when those of the others are left out. -/
theorem slices_keptSlices (l : List β) (vals : List α) :
    slices ((l.filter keep).map len) (keptSlices keep len l vals).flatten =
      keptSlices keep len l vals := by
  induction l generalizing vals with
  | nil => rfl
  | cons b l ih =>
      cases hb : keep b with
      | false =>
          rw [List.filter_cons_of_neg (by rw [hb]; decide), keptSlices, if_neg (by rw [hb]; decide)]
          exact ih _
      | true =>
          rw [List.filter_cons_of_pos hb, List.map_cons, keptSlices, if_pos hb, List.flatten_cons, slices]
          by_cases hlen : len b ≤ vals.length
          · have htake : (vals.take (len b)).length = len b := List.length_take_of_le hlen
            rw [List.take_append_of_le_length (Nat.le_of_eq htake.symm),
              List.drop_append_of_le_length (Nat.le_of_eq htake.symm),
              List.take_of_length_le (Nat.le_of_eq htake), List.drop_of_length_le (Nat.le_of_eq htake),
              List.nil_append, ih]
          · have hdrop : vals.drop (len b) = [] := List.drop_of_length_le (by omega)
            have hrest := ih (vals.drop (len b))
            rw [hdrop] at hrest ⊢
            rw [flatten_keptSlices_nil] at hrest ⊢
            rw [List.append_nil, List.take_take, Nat.min_self, List.drop_take, Nat.sub_self,
              List.take_zero, hrest]

theorem getElem?_keptSlices {l : List β} {k : Nat} {b : β} (h : l[k]? = some b) (hb : keep b = true)
    (vals : List α) :
    (keptSlices keep len l vals)[(l.take k).countP keep]? = (slices (l.map len) vals)[k]? := by
  induction l generalizing k vals with
  | nil => cases h
  | cons c l ih =>
      cases k with
      | zero =>
          cases h
          rw [keptSlices, if_pos hb]
          rfl
      | succ k =>
          rw [List.take_succ_cons, List.map_cons, slices, List.getElem?_cons_succ, keptSlices]
          cases hc : keep c with
          | true =>
              rw [if_pos rfl, List.countP_cons_of_pos hc, List.getElem?_cons_succ]
              exact ih h _
          | false =>
              rw [if_neg (by decide), List.countP_cons_of_neg (by rw [hc]; decide)]
              exact ih h _

end Kept

/-! ## 2. Deletion -/

/-- A block: whether it shows nothing, and its lines, each with the block that it refers to. -/
structure Block (α : Type) where
  silent : Bool
  lines : List (α × Option Nat)
  deriving DecidableEq

def Block.retarget (f : Nat → Nat) (b : Block α) : Block α :=
  { b with lines := b.lines.map fun l => (l.1, l.2.map f) }

/-- The number of kept blocks before a place. -/
def rank (p : List (Block α)) (k : Nat) : Nat := (p.take k).countP (!·.silent)

def delete (p : List (Block α)) : List (Block α) :=
  (p.filter (!·.silent)).map (Block.retarget (rank p))

theorem rank_succ {p : List (Block α)} {k : Nat} {b : Block α} (h : p[k]? = some b) :
    rank p (k + 1) = rank p k + if b.silent then 0 else 1 := by
  unfold rank
  rw [List.take_add_one, h, Option.toList_some, List.countP_append, List.countP_singleton]
  cases b.silent <;> rfl

theorem length_delete (p : List (Block α)) : (delete p).length = p.countP (!·.silent) := by
  rw [delete, List.length_map, List.countP_eq_length_filter]

theorem rank_mono (p : List (Block α)) {k j : Nat} (h : k ≤ j) : rank p k ≤ rank p j :=
  List.Sublist.countP_le (List.take_sublist_take_left h)

/-- Behind the last kept block is the end of what is left. -/
theorem rank_eq_length {p : List (Block α)} {k : Nat}
    (h : ∀ i b, k ≤ i → p[i]? = some b → b.silent = true) : rank p k = (delete p).length := by
  have hrest : (p.drop k).countP (!·.silent) = 0 := by
    rw [List.countP_eq_zero]
    intro b hb
    obtain ⟨i, hi⟩ := List.mem_iff_getElem?.mp hb
    rw [List.getElem?_drop] at hi
    simp [h _ b (Nat.le_add_right k i) hi]
  rw [length_delete, rank]
  conv_rhs => rw [← List.take_append_drop k p, List.countP_append, hrest]
  rfl

section Filter

variable {β : Type} {keep : β → Bool} {l : List β} {b : β}

/-- An entry that a filter keeps stands behind those that are kept before it. -/
theorem getElem?_filter_countP {k : Nat} (h : l[k]? = some b) (hb : keep b = true) :
    (l.filter keep)[(l.take k).countP keep]? = some b := by
  induction l generalizing k with
  | nil => cases h
  | cons c l ih =>
      cases k with
      | zero =>
          cases h
          rw [List.filter_cons_of_pos hb]
          rfl
      | succ k =>
          rw [List.take_succ_cons]
          cases hc : keep c with
          | true =>
              rw [List.filter_cons_of_pos hc, List.countP_cons_of_pos hc]
              exact ih h
          | false =>
              rw [List.filter_cons_of_neg (by rw [hc]; decide),
                List.countP_cons_of_neg (by rw [hc]; decide)]
              exact ih h

/-- Where an entry that a filter has kept comes from. -/
theorem exists_of_getElem?_filter {j : Nat} (h : (l.filter keep)[j]? = some b) :
    ∃ i, l[i]? = some b ∧ keep b = true ∧ (l.take i).countP keep = j := by
  induction l generalizing j with
  | nil => cases h
  | cons c l ih =>
      cases hc : keep c with
      | true =>
          rw [List.filter_cons_of_pos hc] at h
          cases j with
          | zero =>
              cases h
              exact ⟨0, rfl, hc, rfl⟩
          | succ j =>
              obtain ⟨i, hi, hb, hj⟩ := ih h
              exact ⟨i + 1, hi, hb, by rw [List.take_succ_cons, List.countP_cons_of_pos hc, hj]⟩
      | false =>
          rw [List.filter_cons_of_neg (by rw [hc]; decide)] at h
          obtain ⟨i, hi, hb, hj⟩ := ih h
          exact ⟨i + 1, hi, hb,
            by rw [List.take_succ_cons, List.countP_cons_of_neg (by rw [hc]; decide), hj]⟩

end Filter

/-- **A kept block** stands at its rank. -/
theorem getElem?_delete {p : List (Block α)} {k : Nat} {b : Block α} (h : p[k]? = some b)
    (hb : b.silent = false) : (delete p)[rank p k]? = some (b.retarget (rank p)) := by
  rw [delete, List.getElem?_map, rank, getElem?_filter_countP h (by rw [hb]; rfl)]
  rfl

theorem getElem?_delete_end {p : List (Block α)} {k : Nat} (h : p[k]? = none) :
    (delete p)[rank p k]? = none := by
  have hend : rank p k = (delete p).length := rank_eq_length fun i b hi hb => by
    have hlt := (List.getElem?_eq_some_iff.mp hb).1
    have hle := List.getElem?_eq_none_iff.mp h
    omega
  exact List.getElem?_eq_none_iff.mpr (Nat.le_of_eq hend.symm)

/-! ## 3. Executions -/

/-- Where an execution is, and the lines that it has visited. -/
@[ext]
structure Point (α : Type) where
  block : Nat
  line : Nat
  visited : List α

/-- Where a line of a block leads to. -/
def Block.target (b : Block α) (choice : Option Nat) : Option Nat :=
  choice.bind fun t => (b.lines[t]?).bind (·.2)

/-- One step. From the lines that it has visited, the execution chooses whether it goes where a line of
    the block refers to, or to the next line. -/
def step (p : List (Block α)) (choose : List α → Option Nat) (s : Point α) : Point α :=
  match p[s.block]? with
  | none => s
  | some b =>
      if b.silent then ⟨s.block + 1, 0, s.visited⟩
      else
        match b.lines[s.line]? with
        | none => ⟨s.block + 1, 0, s.visited⟩
        | some l =>
            match b.target (choose (s.visited ++ [l.1])) with
            | some k => ⟨k, 0, s.visited ++ [l.1]⟩
            | none => ⟨s.block, s.line + 1, s.visited ++ [l.1]⟩

/-- An execution that starts with a block can come to have visited these lines. -/
def Visits (p : List (Block α)) (choose : List α → Option Nat) (k : Nat) (v : List α) : Prop :=
  ∃ n, ((step p choose)^[n] ⟨k, 0, []⟩).visited = v

/-- The point of the program after the deletion. -/
structure Simulates (p : List (Block α)) (s t : Point α) : Prop where
  block : t.block = rank p s.block
  line : t.line = s.line
  visited : t.visited = s.visited
  fresh : ∀ b, p[s.block]? = some b → b.silent = true → s.line = 0

section Simulation

variable {p : List (Block α)} {choose : List α → Option Nat} {s t : Point α}

theorem Simulates.start (p : List (Block α)) (k : Nat) (v : List α) :
    Simulates p ⟨k, 0, v⟩ ⟨rank p k, 0, v⟩ := ⟨rfl, rfl, rfl, fun _ _ _ => rfl⟩

theorem Block.target_retarget (b : Block α) (f : Nat → Nat) (choice : Option Nat) :
    (b.retarget f).target choice = (b.target choice).map f := by
  cases choice with
  | none => rfl
  | some t =>
      show ((b.lines.map _)[t]?).bind _ = ((b.lines[t]?).bind _).map f
      rw [List.getElem?_map]
      cases b.lines[t]? <;> rfl

/-- A step in a deleted block is no step of what is left. -/
theorem Simulates.silent (h : Simulates p s t) {b : Block α} (hb : p[s.block]? = some b)
    (hs : b.silent = true) : Simulates p (step p choose s) t := by
  have hstep : step p choose s = ⟨s.block + 1, 0, s.visited⟩ := by
    unfold step
    rw [hb]
    exact if_pos hs
  have hrank : rank p s.block = rank p (s.block + 1) := by
    rw [rank_succ hb, if_pos hs, Nat.add_zero]
  rw [hstep]
  exact ⟨h.block.trans hrank, h.line.trans (h.fresh b hb hs), h.visited, fun _ _ _ => rfl⟩

/-- **A step in a kept block** is the same step of what is left. -/
theorem Simulates.kept (h : Simulates p s t) {b : Block α} (hb : p[s.block]? = some b)
    (hs : b.silent = false) : Simulates p (step p choose s) (step (delete p) choose t) := by
  have hb' : (delete p)[t.block]? = some (b.retarget (rank p)) := by
    rw [h.block]
    exact getElem?_delete hb hs
  have hnext : rank p (s.block + 1) = t.block + 1 := by
    rw [rank_succ hb, hs, h.block]
    rfl
  have hs' : ¬ (b.retarget (rank p)).silent = true := by
    show ¬ b.silent = true
    rw [hs]
    decide
  unfold step
  rw [hb, hb']
  dsimp only
  rw [if_neg (by rw [hs]; decide), if_neg hs', h.line, h.visited]
  show Simulates p _ (match (b.lines.map fun l => (l.1, l.2.map (rank p)))[s.line]? with
    | none => _
    | some l => _)
  rw [List.getElem?_map]
  cases hl : b.lines[s.line]? with
  | none => exact ⟨hnext.symm, rfl, rfl, fun _ _ _ => rfl⟩
  | some l =>
      dsimp only [Option.map_some]
      rw [Block.target_retarget]
      cases hk : b.target (choose (s.visited ++ [l.1])) with
      | none =>
          refine ⟨h.block, rfl, rfl, fun c hc hsilent => ?_⟩
          rw [hb] at hc
          cases hc
          rw [hs] at hsilent
          cases hsilent
      | some k => exact Simulates.start p k _

/-- A step of the program is a step of what is left, or none. -/
theorem Simulates.step (h : Simulates p s t) (choose : List α → Option Nat) :
    ∃ m, Simulates p (Blocks.step p choose s) ((Blocks.step (delete p) choose)^[m] t) := by
  cases hb : p[s.block]? with
  | none =>
      have hstay : Blocks.step p choose s = s := by
        unfold Blocks.step
        rw [hb]
      refine ⟨0, ?_⟩
      rw [hstay]
      exact h
  | some b =>
      cases hs : b.silent with
      | true => exact ⟨0, h.silent hb hs⟩
      | false => exact ⟨1, h.kept hb hs⟩

/-- A step of what is left is some steps of the program: those of deleted blocks come before it. -/
theorem Simulates.step_back (h : Simulates p s t) (choose : List α → Option Nat) :
    ∃ n, Simulates p ((Blocks.step p choose)^[n] s) (Blocks.step (delete p) choose t) := by
  induction hn : p.length - s.block using Nat.strongRecOn generalizing s with
  | ind n ih =>
  cases hb : p[s.block]? with
  | none =>
      have hstay : Blocks.step (delete p) choose t = t := by
        unfold Blocks.step
        rw [h.block, getElem?_delete_end hb]
      refine ⟨0, ?_⟩
      rw [hstay]
      exact h
  | some b =>
      cases hs : b.silent with
      | false => exact ⟨1, h.kept hb hs⟩
      | true =>
          have hlt := (List.getElem?_eq_some_iff.mp hb).1
          have hblock : (Blocks.step p choose s).block = s.block + 1 := by
            unfold Blocks.step
            rw [hb]
            dsimp only
            rw [if_pos hs]
          have hnext : Simulates p (Blocks.step p choose s) t := h.silent hb hs
          obtain ⟨m, hm⟩ := ih _ (by omega) hnext rfl
          exact ⟨m + 1, hm⟩

/-- A relation that each step of one side keeps, with some steps of the other, holds along the run. -/
theorem iterate_related {σ τ : Type} {f : σ → σ} {g : τ → τ} {R : σ → τ → Prop}
    (hstep : ∀ s t, R s t → ∃ m, R (f s) (g^[m] t)) {s : σ} {t : τ} (h : R s t) (n : Nat) :
    ∃ m, R (f^[n] s) (g^[m] t) := by
  induction n with
  | zero => exact ⟨0, h⟩
  | succ n ih =>
      obtain ⟨m, hm⟩ := ih
      obtain ⟨m', hm'⟩ := hstep _ _ hm
      refine ⟨m' + m, ?_⟩
      rw [Function.iterate_succ_apply', Function.iterate_add_apply]
      exact hm'

end Simulation

/-- **Deletion leaves the visited lines as they are**, and their order. -/
theorem visits_delete (p : List (Block α)) (choose : List α → Option Nat) (k : Nat) (v : List α) :
    Visits p choose k v ↔ Visits (delete p) choose (rank p k) v := by
  have hstart := Simulates.start p k []
  constructor
  · intro h
    obtain ⟨n, rfl⟩ := h
    obtain ⟨m, hm⟩ := iterate_related (R := Simulates p) (fun _ _ h => h.step choose) hstart n
    exact ⟨m, hm.visited⟩
  · intro h
    obtain ⟨m, rfl⟩ := h
    obtain ⟨n, hn⟩ := iterate_related (R := fun t s => Simulates p s t)
      (fun _ _ h => h.step_back choose) hstart m
    exact ⟨n, hn.visited.symm⟩

end Difuzz.Blocks
