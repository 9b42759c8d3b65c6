/-
  File:      DifuzzRtl/Mutator/Random.lean
  Subject:   The interpreter under the input generator: exceptions and the module `random`.

  * `World` -- what outlives a call: the draws that are still to come, and the two page bases that
    inst_generator.py keeps as attributes of a function. A run over all worlds is a run over all
    random choices; a tape that has ended goes on with zeros.
  * `Rand` -- a computation that draws and may raise.
  * `randint`, `choice`, `choices`, `sample`, `shuffle` -- the functions of `random`, with what each
    can return (`ensures_randint` and the like).
  * `percent` -- `random.random()` in hundredths: the source compares it with multiples of 0.01 only.
-/
import Mathlib.Data.List.Perm.Basic
import DifuzzRtl.Lib.Effects
import Mathlib.Algebra.GroupWithZero.Nat

namespace Difuzz.Mutator

/-- The exceptions the input generator can raise. -/
inductive Exn where
  | assertion
  | index
  | key
  | type
  | unboundLocal
  | value
  deriving DecidableEq, Repr

structure World where
  tape : List Nat
  hotPageBase : Option Nat
  crossLinePageBase : Option Nat
  deriving DecidableEq, Repr

abbrev Rand := StateT World (Except Exn)

def draw : Rand Nat := fun w => .ok (w.tape.headD 0, { w with tape := w.tape.tail })

/-- `random.random()`, in hundredths. -/
def percent : Rand Nat := do return (← draw) % 100

/-- `random.randint(lo, hi)`, with both ends. -/
def randint (lo hi : Int) : Rand Int := do
  if hi < lo then throw .value
  else return lo + ((← draw) % (hi - lo + 1).toNat : Nat)

/-- `random.randint` for bounds that are not negative. -/
def randnat (lo hi : Nat) : Rand Nat := do
  if hi < lo then throw .value
  else return lo + (← draw) % (hi - lo + 1)

/-- `random.randrange(0, stop, step)`. -/
def randrange (stop step : Nat) : Rand Nat := do
  return step * ((← draw) % ((stop + step - 1) / step))

def choice {α : Type} (l : List α) : Rand α := do
  match l[(← draw) % l.length]? with
  | some a => return a
  | none => throw .index

/-- Walks along the weights. -/
def pick {α : Type} : List (α × Nat) → Nat → Option α
  | [], _ => none
  | (a, w) :: l, n => if n < w then some a else pick l (n - w)

/-- `random.choices(population, weights)[0]`. -/
def choices {α : Type} (population : List α) (weights : List Nat) : Rand α := do
  if population.length ≠ weights.length then throw .value
  else
    match pick (population.zip weights) ((← draw) % weights.sum) with
    | some a => return a
    | none => throw .value

/-- `random.sample(l, k)`: elements at `k` different places. -/
def sample {α : Type} : Nat → List α → Rand (List α)
  | 0, _ => return []
  | k + 1, l => do
      let i := (← draw) % l.length
      match l[i]? with
      | some a => return a :: (← sample k (l.eraseIdx i))
      | none => throw .value

def swap {α : Type} (l : List α) (i j : Nat) : List α :=
  if h : i < l.length ∧ j < l.length then (l.set i l[j]).set j l[i] else l

def shuffleFrom {α : Type} : Nat → List α → Rand (List α)
  | 0, l => return l
  | i + 1, l => do
      let j := (← draw) % (i + 2)
      shuffleFrom i (swap l (i + 1) j)

/-- `random.shuffle`: every place from the last down to the second is swapped with one that is not
    after it. -/
def shuffle {α : Type} (l : List α) : Rand (List α) := shuffleFrom (l.length - 1) l

/-! ## What they return -/

theorem ensures_randint (lo hi : Int) : Ensures (randint lo hi) fun n => lo ≤ n ∧ n ≤ hi := by
  refine Ensures.ite (fun _ => Ensures.throw) fun h => Ensures.bind' fun n => Ensures.pure ?_
  have hpos : 0 < (hi - lo + 1).toNat := by omega
  have hlt := Nat.mod_lt n hpos
  omega

theorem returns_randint {lo hi : Int} (h : lo ≤ hi) :
    Returns (randint lo hi) fun n => lo ≤ n ∧ n ≤ hi := by
  have hret : Returns (randint lo hi) fun _ => True :=
    Returns.ite (fun hlt => absurd hlt (by omega)) fun _ w => ⟨_, _, rfl, trivial⟩
  exact (hret.and_ensures (ensures_randint lo hi)).mono fun n hn => hn.2

/-- Every number of the range can be drawn. -/
theorem possible_randint {lo hi r : Int} (h : lo ≤ r) (h' : r ≤ hi) :
    Possible (randint lo hi) (· = r) := by
  refine ⟨r, rfl, fun w => ⟨{ w with tape := (r - lo).toNat :: w.tape }, ?_⟩⟩
  have hmod : (r - lo).toNat % (hi - lo + 1).toNat = (r - lo).toNat := Nat.mod_eq_of_lt (by omega)
  have hval : lo + ((r - lo).toNat : Int) = r := by omega
  unfold randint
  rw [if_neg (by omega)]
  show Except.ok (lo + (((r - lo).toNat % (hi - lo + 1).toNat : Nat) : Int), w) = _
  rw [hmod, hval]

theorem ensures_randnat (lo hi : Nat) : Ensures (randnat lo hi) fun n => lo ≤ n ∧ n ≤ hi := by
  refine Ensures.ite (fun _ => Ensures.throw) fun h => Ensures.bind' fun n => Ensures.pure ?_
  have hlt := Nat.mod_lt n (show 0 < hi - lo + 1 by omega)
  omega

theorem returns_draw : Returns draw fun _ => True := fun _ => ⟨_, _, rfl, trivial⟩

theorem returns_percent : Returns percent fun _ => True := fun _ => ⟨_, _, rfl, trivial⟩

theorem returns_randnat {lo hi : Nat} (h : lo ≤ hi) :
    Returns (randnat lo hi) fun n => lo ≤ n ∧ n ≤ hi := by
  have hret : Returns (randnat lo hi) fun _ => True :=
    Returns.ite (fun hlt => absurd hlt (by omega)) fun _ w => ⟨_, _, rfl, trivial⟩
  exact (hret.and_ensures (ensures_randnat lo hi)).mono fun n hn => hn.2

theorem returns_randrange (stop step : Nat) : Returns (randrange stop step) fun _ => True :=
  fun _ => ⟨_, _, rfl, trivial⟩

theorem ensures_choice {α : Type} (l : List α) : Ensures (choice l) (· ∈ l) := by
  refine Ensures.bind' fun n => ?_
  cases h : l[n % l.length]? with
  | none => exact Ensures.throw
  | some a => exact Ensures.pure (List.mem_of_getElem? h)

theorem returns_choice {α : Type} {l : List α} (h : l ≠ []) : Returns (choice l) (· ∈ l) := by
  refine returns_draw.bind fun n _ => ?_
  have hlt : n % l.length < l.length := Nat.mod_lt n (List.length_pos_iff.mpr h)
  rw [List.getElem?_eq_getElem hlt]
  exact Returns.pure (List.getElem_mem hlt)

/-- The walk along the weights ends before they do. -/
theorem pick_mem {α : Type} {l : List (α × Nat)} {n : Nat} (h : n < (l.map (·.2)).sum) :
    ∃ a, pick l n = some a ∧ a ∈ l.map (·.1) := by
  induction l generalizing n with
  | nil => exact absurd h (Nat.not_lt_zero n)
  | cons e l ih =>
      rw [List.map_cons, List.sum_cons] at h
      unfold pick
      split
      · exact ⟨e.1, rfl, List.mem_cons_self⟩
      · obtain ⟨a, ha, hm⟩ := ih (n := n - e.2) (by omega)
        exact ⟨a, ha, List.mem_cons_of_mem _ hm⟩

theorem returns_choices {α : Type} {population : List α} {weights : List Nat}
    (hl : population.length = weights.length) (hw : 0 < weights.sum) :
    Returns (choices population weights) (· ∈ population) := by
  refine Returns.ite (fun hne => absurd hl hne) fun _ => returns_draw.bind fun n _ => ?_
  have hsum : ((population.zip weights).map (·.2)).sum = weights.sum := by
    rw [List.map_snd_zip (by omega)]
  obtain ⟨a, ha, hm⟩ := pick_mem (l := population.zip weights) (n := n % weights.sum)
    (by rw [hsum]; exact Nat.mod_lt n hw)
  rw [ha]
  rw [List.map_fst_zip (by omega)] at hm
  exact Returns.pure hm

theorem ensures_sample {α : Type} (k : Nat) (l : List α) :
    Ensures (sample k l) fun r => ∀ a ∈ r, a ∈ l := by
  induction k generalizing l with
  | zero => exact Ensures.pure (fun a ha => (nomatch ha))
  | succ k ih =>
      refine Ensures.bind' fun n => ?_
      dsimp only
      cases h : l[n % l.length]? with
      | none => exact Ensures.throw
      | some a =>
          refine (ih _).bind fun r hr => Ensures.pure ?_
          intro b hb
          rcases List.mem_cons.mp hb with rfl | hb
          · exact List.mem_of_getElem? h
          · exact List.mem_of_mem_eraseIdx (hr b hb)

theorem returns_sample {α : Type} {k : Nat} {l : List α} (h : k ≤ l.length) :
    Returns (sample k l) fun r => ∀ a ∈ r, a ∈ l := by
  induction k generalizing l with
  | zero => exact Returns.pure (fun a ha => (nomatch ha))
  | succ k ih =>
      refine returns_draw.bind fun n _ => ?_
      have hlt : n % l.length < l.length := Nat.mod_lt n (by omega)
      dsimp only
      rw [List.getElem?_eq_getElem hlt]
      have hrest : k ≤ (l.eraseIdx (n % l.length)).length := by
        rw [List.length_eraseIdx_of_lt hlt]
        omega
      refine (ih hrest).bind fun r hr => Returns.pure fun a ha => ?_
      rcases List.mem_cons.mp ha with rfl | ha
      · exact List.getElem_mem hlt
      · exact List.mem_of_mem_eraseIdx (hr a ha)

theorem swap_perm {α : Type} (l : List α) (i j : Nat) : (swap l i j).Perm l := by
  unfold swap
  split
  · rename_i h
    exact List.set_set_perm h.1 h.2
  · exact List.Perm.refl l

theorem ensures_shuffleFrom {α : Type} (i : Nat) (l : List α) :
    Ensures (shuffleFrom i l) (·.Perm l) := by
  induction i generalizing l with
  | zero => exact Ensures.pure (List.Perm.refl l)
  | succ i ih =>
      refine Ensures.bind' fun n => ?_
      exact (ih _).mono fun r hr => hr.trans (swap_perm _ _ _)

/-- Shuffling loses and invents nothing. -/
theorem ensures_shuffle {α : Type} (l : List α) : Ensures (shuffle l) (·.Perm l) :=
  ensures_shuffleFrom _ l

end Difuzz.Mutator
