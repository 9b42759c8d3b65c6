/-
  File:      DifuzzRtl/Lib/Scheduling.lean
  Subject:   The events of a clock edge: blocking assignments act at once, nonblocking ones when all
             blocks have run.

  * `Block` -- what an `always` block does: it changes the state (`assign`) and queues updates of it
    (`schedule`), whose right-hand sides it reads now.
  * `edge` -- the blocks run in some order, then the queue is emptied from its front.
  * `proj_silent` -- updates that leave a part of the state alone.
  * `forM_assign` -- a loop of blocking assignments queues nothing.
-/
import Mathlib.Tactic.Common

namespace Difuzz.Scheduling

variable {σ α : Type}

/-- The state of an edge, and the updates that are queued. -/
structure Active (σ : Type) where
  now : σ
  later : List (σ → σ)

abbrev Block (σ : Type) := StateM (Active σ)

/-- What a block reads. -/
def now : Block σ σ := fun a => (a.now, a)

/-- A blocking assignment. -/
def assign (f : σ → σ) : Block σ Unit := fun a => ((), { a with now := f a.now })

/-- A nonblocking assignment. -/
def schedule (f : σ → σ) : Block σ Unit := fun a => ((), { a with later := a.later ++ [f] })

theorem now_apply (a : Active σ) : now a = (a.now, a) := rfl

theorem schedule_apply (f : σ → σ) (a : Active σ) : schedule f a = ((), ⟨a.now, a.later ++ [f]⟩) := rfl

theorem bind_apply {β : Type} (b : Block σ α) (c : α → Block σ β) (a : Active σ) :
    (b >>= c) a = c (b a).1 (b a).2 := rfl

theorem pure_apply (x : α) (a : Active σ) : (pure x : Block σ α) a = (x, a) := rfl

/-- The queue is emptied. -/
def settle (a : Active σ) : σ := a.later.foldl (fun s f => f s) a.now

/-- An edge, with the blocks in the order that the simulator chooses. -/
def edge (blocks : List (Block σ Unit)) (s : σ) : σ :=
  settle (blocks.foldl (fun a b => (b a).2) ⟨s, []⟩)

/-- Updates of the rest of the state. -/
theorem proj_silent {π : σ → α} {us : List (σ → σ)} (h : ∀ u ∈ us, ∀ s, π (u s) = π s) (s : σ) :
    π (us.foldl (fun s f => f s) s) = π s := by
  induction us generalizing s with
  | nil => rfl
  | cons u us ih =>
      rw [List.foldl_cons, ih (fun v hv => h v (List.mem_cons_of_mem _ hv)), h u List.mem_cons_self]

/-- **A loop of blocking assignments** acts on the state, and queues nothing. -/
theorem forM_assign {β : Type} (l : List β) (f : β → σ → σ) (a : Active σ) :
    (l.forM fun b => assign (f b)) a = ((), ⟨l.foldl (fun s b => f b s) a.now, a.later⟩) := by
  induction l generalizing a with
  | nil => rfl
  | cons b l ih => exact ih _

end Difuzz.Scheduling
