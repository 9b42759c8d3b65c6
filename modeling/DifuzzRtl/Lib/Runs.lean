/-
  File:      DifuzzRtl/Lib/Runs.lean
  Subject:   Systems that take labelled steps, and their runs.

  * `Machine` -- the initial states and the steps of a system; a step has a label.
  * `Machine.Trace` -- a run, with the list of its steps.
  * `Trace.inv` -- the induction rule: what holds at first and is kept by every step that meets a
    condition holds at the end of every run whose steps all meet it.
  * `Trace.steps` -- the same for each step on the way.
  * `Trace.since` -- the same from a step of the run on.
  * `exec` -- the run of a list of labels, computed.
-/
import Mathlib.Tactic.Common

namespace Difuzz

/-- A system with states `σ` and labels `α`. -/
structure Machine (σ α : Type) where
  init : σ → Prop
  step : σ → α → σ → Prop

namespace Machine

variable {σ α : Type}

/-- A run that ends in the state, with its steps: the state before, the label, the state after. -/
inductive Trace (M : Machine σ α) : List (σ × α × σ) → σ → Prop where
  | start (s : σ) (h : M.init s) : Trace M [] s
  | step {tr : List (σ × α × σ)} {s : σ} (a : α) (s' : σ) (h : Trace M tr s) (hs : M.step s a s') :
      Trace M (tr ++ [(s, a, s')]) s'

/-- All steps of a run meet a condition on the state before and the label. -/
def Along (P : σ → α → Prop) (tr : List (σ × α × σ)) : Prop := ∀ x ∈ tr, P x.1 x.2.1

variable {M : Machine σ α} {P : σ → α → Prop} {tr : List (σ × α × σ)} {s : σ}

theorem along_append {tr' : List (σ × α × σ)} :
    Along P (tr ++ tr') ↔ Along P tr ∧ Along P tr' := by
  unfold Along
  constructor
  · intro h
    exact ⟨fun x hx => h x (List.mem_append_left _ hx), fun x hx => h x (List.mem_append_right _ hx)⟩
  · intro h x hx
    rcases List.mem_append.mp hx with hx | hx
    · exact h.1 x hx
    · exact h.2 x hx

/-- **Induction over runs.** -/
theorem Trace.inv {I : σ → Prop} (h₀ : ∀ s, M.init s → I s)
    (hstep : ∀ s a s', I s → P s a → M.step s a s' → I s') (h : Trace M tr s) (hP : Along P tr) :
    I s := by
  induction h with
  | start s h => exact h₀ s h
  | @step tr s a s' _ hs ih =>
      rw [along_append] at hP
      exact hstep s a s' (ih hP.1) (hP.2 _ (List.mem_singleton_self _)) hs

/-- What holds along a run holds where each of its steps starts. -/
theorem Trace.steps {I : σ → Prop} (h₀ : ∀ s, M.init s → I s)
    (hstep : ∀ s a s', I s → P s a → M.step s a s' → I s') (h : Trace M tr s) (hP : Along P tr) :
    ∀ x ∈ tr, I x.1 ∧ M.step x.1 x.2.1 x.2.2 := by
  induction h with
  | start s h => exact fun x hx => (nomatch hx)
  | @step tr s a s' h hs ih =>
      rw [along_append] at hP
      intro x hx
      rcases List.mem_append.mp hx with hx | hx
      · exact ih hP.1 x hx
      · rw [List.mem_singleton.mp hx]
        exact ⟨h.inv h₀ hstep hP.1, hs⟩

/-- **Induction from a step of a run on.** The steps after it are `tr₂`; each starts in a state that a
    run reaches. -/
theorem Trace.since {I : List (σ × α × σ) → σ → Prop} {tr₁ tr₂ : List (σ × α × σ)} {x : σ × α × σ}
    (h : Trace M tr s) (htr : tr = tr₁ ++ x :: tr₂)
    (h₀ : Trace M tr₁ x.1 → M.step x.1 x.2.1 x.2.2 → I [] x.2.2)
    (hstep : ∀ (tr' l : List (σ × α × σ)) (s : σ) (a : α) (s' : σ), Trace M tr' s →
      (s, a, s') ∈ tr₂ → I l s → M.step s a s' → I (l ++ [(s, a, s')]) s') : I tr₂ s := by
  induction h generalizing tr₂ with
  | start s h => exact absurd htr (by simp)
  | @step tr s a s' htrace hs ih =>
      rcases List.eq_nil_or_concat tr₂ with rfl | ⟨tr₃, y, rfl⟩
      · obtain ⟨rfl, hx⟩ := List.append_inj' htr rfl
        obtain rfl : (s, a, s') = x := (List.cons.inj hx).1
        exact h₀ htrace hs
      · rw [List.concat_eq_append] at htr hstep ⊢
        have hsplit : tr ++ [(s, a, s')] = (tr₁ ++ x :: tr₃) ++ [y] := by
          rw [htr]
          simp
        obtain ⟨rfl, hy⟩ := List.append_inj' hsplit rfl
        obtain rfl : (s, a, s') = y := (List.cons.inj hy).1
        refine hstep _ tr₃ s a s' htrace (by simp) ?_ hs
        exact ih rfl fun tr' l s₁ a₁ s₁' ht hm => hstep tr' l s₁ a₁ s₁' ht (List.mem_append_left _ hm)

end Machine

/-! ## 2. Runs that are computed -/

/-- The run of a list of labels, as far as the steps succeed. -/
def exec {σ α : Type} (f : σ → α → Option σ) : σ → List α → List (σ × α × σ) × σ
  | s, [] => ([], s)
  | s, a :: as =>
      match f s a with
      | none => ([], s)
      | some s' => ((s, a, s') :: (exec f s' as).1, (exec f s' as).2)

/-- The labels of a computed run are those that were given. -/
theorem exec_along {σ α : Type} {f : σ → α → Option σ} {P : α → Prop} {as : List α}
    (h : ∀ a ∈ as, P a) (s : σ) : Machine.Along (fun _ a => P a) (exec f s as).1 := by
  induction as generalizing s with
  | nil => exact fun x hx => (nomatch hx)
  | cons a as ih =>
      unfold exec
      split
      · exact fun x hx => (nomatch hx)
      · rename_i s' _
        intro x hx
        rcases List.mem_cons.mp hx with rfl | hx
        · exact h a List.mem_cons_self
        · exact ih (fun b hb => h b (List.mem_cons_of_mem _ hb)) s' x hx

/-- The last label of a computed run is met where the others have led. -/
theorem exec_concat {σ α : Type} {f : σ → α → Option σ} {as : List α} {a : α} {s : σ} {x : σ × α × σ}
    (h : x ∈ (exec f s (as ++ [a])).1) :
    x ∈ (exec f s as).1 ∨ (x.1 = (exec f s as).2 ∧ x.2.1 = a) := by
  induction as generalizing s with
  | nil =>
      unfold exec at h
      rw [List.nil_append] at h
      dsimp only at h
      split at h
      · cases h
      · rw [List.mem_singleton.mp h]
        exact .inr ⟨rfl, rfl⟩
  | cons b as ih =>
      rw [List.cons_append] at h
      unfold exec at h ⊢
      split at h
      · cases h
      · dsimp only
        rcases List.mem_cons.mp h with h | h
        · exact .inl (h ▸ List.mem_cons_self)
        · exact (ih h).imp (List.mem_cons_of_mem _) id

theorem Machine.exec_trace {σ α : Type} {M : Machine σ α} {f : σ → α → Option σ}
    (hf : ∀ s a s', f s a = some s' → M.step s a s') {tr : List (σ × α × σ)} {s : σ}
    (h : M.Trace tr s) (as : List α) : M.Trace (tr ++ (exec f s as).1) (exec f s as).2 := by
  induction as generalizing tr s with
  | nil =>
      rw [exec, List.append_nil]
      exact h
  | cons a as ih =>
      unfold exec
      split
      · rw [List.append_nil]
        exact h
      · rename_i s' hs
        rw [List.append_cons]
        exact ih (h.step a s' (hf s a s' hs))

end Difuzz
