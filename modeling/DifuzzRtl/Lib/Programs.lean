/-
  File:      DifuzzRtl/Lib/Programs.lean
  Subject:   Programs that ask their environment for effects, alone and side by side.

  * `Prog` -- a program: it ends with a value, or asks for an effect and goes on with the answer.
  * `Prog.Runs` -- a run of one program, whatever the answers are; `runs_bind` takes the run of a
    composed program apart. `Prog.replay` computes the run with given answers.
  * `Shows` -- what every run of a program shows of its effects, and what it returns; `shows_bind`
    and the others compute it along the program.
  * `Prog.eval` -- the program runs alone over a state; `eval_bind` composes.
  * `Prog.Only` -- whatever the answers are, the program asks for effects of one kind only.
  * `Processes` -- any number of programs over a shared state, with the list of what happened.
    `Processes.turn` lets one of them do its next effect; `exec_eval`: as long as only one of them has
    its turn, it runs alone.
-/
import Mathlib.Logic.Function.Basic
import Mathlib.Tactic.Common
import DifuzzRtl.Lib.Runs

namespace Difuzz

/-! ## 1. Programs -/

/-- A program with effects `ε`; an effect `e` is answered by a value of `ρ e`. -/
inductive Prog (ε : Type) (ρ : ε → Type) (α : Type) where
  | ret (a : α)
  | op (e : ε) (k : ρ e → Prog ε ρ α)

namespace Prog

variable {ε : Type} {ρ : ε → Type} {α β : Type}

def bind : Prog ε ρ α → (α → Prog ε ρ β) → Prog ε ρ β
  | .ret a, f => f a
  | .op e k, f => .op e fun r => (k r).bind f

instance : Monad (Prog ε ρ) where
  pure := .ret
  bind := bind

theorem assoc {γ : Type} (p : Prog ε ρ α) (f : α → Prog ε ρ β) (g : β → Prog ε ρ γ) :
    (p >>= f) >>= g = p >>= fun a => f a >>= g := by
  show (p.bind f).bind g = p.bind fun a => (f a).bind g
  induction p with
  | ret a => rfl
  | op e k ih => exact congrArg (Prog.op e) (funext ih)

/-- An effect with its answer. -/
abbrev Event (ε : Type) (ρ : ε → Type) := (e : ε) × ρ e

/-- A run of the program: the effects with their answers, and the value at the end. -/
inductive Runs : Prog ε ρ α → List (Event ε ρ) → α → Prop where
  | ret (a : α) : Runs (.ret a) [] a
  | op (e : ε) (k : ρ e → Prog ε ρ α) (r : ρ e) (tr : List (Event ε ρ)) (a : α)
      (h : Runs (k r) tr a) : Runs (.op e k) (⟨e, r⟩ :: tr) a

theorem runs_pure {a b : α} {tr : List (Event ε ρ)} :
    Runs (pure a) tr b ↔ tr = [] ∧ b = a := by
  constructor
  · intro h
    cases h
    exact ⟨rfl, rfl⟩
  · intro hx
    obtain ⟨rfl, rfl⟩ := hx
    exact .ret b

/-- **The run of a composed program.** -/
theorem runs_bind {p : Prog ε ρ α} {f : α → Prog ε ρ β} {tr : List (Event ε ρ)} {b : β} :
    Runs (p >>= f) tr b ↔
      ∃ tr₁ a tr₂, Runs p tr₁ a ∧ Runs (f a) tr₂ b ∧ tr = tr₁ ++ tr₂ := by
  show Runs (p.bind f) tr b ↔ _
  induction p generalizing tr with
  | ret a =>
      constructor
      · intro h
        exact ⟨[], a, tr, .ret a, h, rfl⟩
      · intro hx
        obtain ⟨tr₁, a', tr₂, h₁, h₂, rfl⟩ := hx
        cases h₁
        exact h₂
  | op e k ih =>
      constructor
      · intro h
        cases h with
        | op _ _ r tr a h =>
            obtain ⟨tr₁, a, tr₂, h₁, h₂, rfl⟩ := (ih r).mp h
            exact ⟨⟨e, r⟩ :: tr₁, a, tr₂, .op e k r tr₁ a h₁, h₂, rfl⟩
      · intro hx
        obtain ⟨tr₁, a, tr₂, h₁, h₂, rfl⟩ := hx
        cases h₁ with
        | op _ _ r tr _ h => exact .op e _ r _ b ((ih r).mpr ⟨tr, a, tr₂, h, h₂, rfl⟩)

/-- The run with given answers, computed. -/
def replay (answer : (e : ε) → Option (ρ e)) : Prog ε ρ α → Option (List (Event ε ρ) × α)
  | .ret a => some ([], a)
  | .op e k =>
      match answer e with
      | none => none
      | some r => (replay answer (k r)).map fun x => (⟨e, r⟩ :: x.1, x.2)

theorem runs_of_replay {answer : (e : ε) → Option (ρ e)} {p : Prog ε ρ α} {tr : List (Event ε ρ)} {a : α}
    (h : p.replay answer = some (tr, a)) : Runs p tr a := by
  induction p generalizing tr with
  | ret b =>
      cases h
      exact .ret _
  | op e k ih =>
      unfold replay at h
      split at h
      · cases h
      · rename_i r _
        obtain ⟨x, hx, hxa⟩ := Option.map_eq_some_iff.mp h
        cases hxa
        exact .op e k r x.1 x.2 (ih r hx)

/-! ## 2. What a program shows -/

section Shows

variable {ω : Type} (f : Event ε ρ → Option ω)

/-- Every run of the program satisfies `Q`: what the run shows of its effects, and its value. -/
def Shows (p : Prog ε ρ α) (Q : List ω → α → Prop) : Prop :=
  ∀ tr a, Runs p tr a → Q (tr.filterMap f) a

variable {f} {p : Prog ε ρ α} {Q R : List ω → α → Prop}

theorem Shows.mono (h : Shows f p Q) (hQR : ∀ l a, Q l a → R l a) : Shows f p R :=
  fun tr a hr => hQR _ _ (h tr a hr)

/-- What is known of the values through another view. -/
theorem Shows.and {ω' : Type} {g : Event ε ρ → Option ω'} {S : List ω' → α → Prop} (h : Shows f p Q)
    (h' : Shows g p S) : Shows f p fun l a => Q l a ∧ ∃ l', S l' a :=
  fun tr a hr => ⟨h tr a hr, _, h' tr a hr⟩

@[simp] theorem shows_pure {a : α} : Shows f (pure a) Q ↔ Q [] a := by
  constructor
  · intro h
    exact h [] a (.ret a)
  · intro h tr b hr
    obtain ⟨rfl, rfl⟩ := runs_pure.mp hr
    exact h

@[simp] theorem shows_bind {g : α → Prog ε ρ β} {Q : List ω → β → Prop} :
    Shows f (p >>= g) Q ↔ Shows f p fun l a => Shows f (g a) fun l' b => Q (l ++ l') b := by
  constructor
  · intro h tr a hr tr' b hr'
    rw [← List.filterMap_append]
    exact h _ b (runs_bind.mpr ⟨tr, a, tr', hr, hr', rfl⟩)
  · intro h tr b hr
    obtain ⟨tr₁, a, tr₂, h₁, h₂, rfl⟩ := runs_bind.mp hr
    rw [List.filterMap_append]
    exact h tr₁ a h₁ tr₂ b h₂

@[simp] theorem shows_ite {c : Prop} [Decidable c] {q : Prog ε ρ α} :
    Shows f (if c then p else q) Q ↔ (c → Shows f p Q) ∧ (¬ c → Shows f q Q) := by
  by_cases h : c
  · simp [h]
  · simp [h]

/-- A single effect, whose answer is returned. -/
theorem shows_op {e : ε} {Q : List ω → ρ e → Prop} :
    Shows f (.op e .ret) Q ↔ ∀ r, Q (f ⟨e, r⟩).toList r := by
  have hone : ∀ r, [(⟨e, r⟩ : Event ε ρ)].filterMap f = (f ⟨e, r⟩).toList := by
    intro r
    cases h : f ⟨e, r⟩ <;> simp [h]
  constructor
  · intro h r
    rw [← hone]
    exact h _ r (.op e _ r [] r (.ret r))
  · intro h tr r hr
    cases hr with
    | op _ _ _ _ _ hr =>
        cases hr
        rw [hone]
        exact h _

end Shows

/-! ## 3. A program alone -/

section Eval

variable {σ : Type} (handle : σ → (e : ε) → Option (ρ e × σ))

/-- The program runs alone over a state that answers its effects. -/
def eval : Prog ε ρ α → σ → Option (α × σ)
  | .ret a, s => some (a, s)
  | .op e k, s => (handle s e).bind fun x => (k x.1).eval x.2

theorem eval_bind (p : Prog ε ρ α) (f : α → Prog ε ρ β) (s : σ) :
    (p >>= f).eval handle s = (p.eval handle s).bind fun x => (f x.1).eval handle x.2 := by
  show (p.bind f).eval handle s = _
  induction p generalizing s with
  | ret a => rfl
  | op e k ih =>
      show (handle s e).bind (fun x => ((k x.1).bind f).eval handle x.2) =
        ((handle s e).bind fun x => (k x.1).eval handle x.2).bind _
      rw [Option.bind_assoc]
      exact congrArg _ (funext fun x => ih x.1 x.2)

end Eval

/-- **Only such effects** are asked for. -/
inductive Only (P : ε → Prop) : Prog ε ρ α → Prop where
  | ret (a : α) : Only P (.ret a)
  | op (e : ε) (k : ρ e → Prog ε ρ α) (he : P e) (h : ∀ r, Only P (k r)) : Only P (.op e k)

theorem Only.bind {P : ε → Prop} {p : Prog ε ρ α} {f : α → Prog ε ρ β} (hp : Only P p)
    (hf : ∀ a, Only P (f a)) : Only P (p >>= f) := by
  show Only P (p.bind f)
  induction hp with
  | ret a => exact hf a
  | op e k he _ ih => exact .op e _ he ih

/-- A single effect, whose answer is returned. -/
def ask (e : ε) : Prog ε ρ (ρ e) := .op e .ret

theorem only_ask {P : ε → Prop} {e : ε} (h : P e) : Only P (ask e : Prog ε ρ (ρ e)) :=
  .op e _ h fun r => .ret r

end Prog

/-! ## 4. Programs side by side -/

/-- Programs over a shared state, numbered, and what they have done so far. -/
structure Processes (σ ε : Type) (ρ : ε → Type) where
  shared : σ
  procs : Nat → Prog ε ρ Unit
  events : List (Nat × Prog.Event ε ρ)

namespace Processes

variable {σ ε : Type} {ρ : ε → Type}

/-- **The next effect of one process**, if the shared state lets it happen. -/
def turn (handle : σ → (e : ε) → Option (ρ e × σ)) (st : Processes σ ε ρ) (i : Nat) :
    Option (Processes σ ε ρ) :=
  match st.procs i with
  | .ret _ => none
  | .op e k =>
      match handle st.shared e with
      | none => none
      | some (r, shared) =>
          some ⟨shared, Function.update st.procs i (k r), st.events ++ [(i, ⟨e, r⟩)]⟩

variable {handle : σ → (e : ε) → Option (ρ e × σ)} {st st' : Processes σ ε ρ} {i : Nat}

theorem turn_eq_some (h : st.turn handle i = some st') :
    ∃ e k r shared, st.procs i = .op e k ∧ handle st.shared e = some (r, shared) ∧
      st' = ⟨shared, Function.update st.procs i (k r), st.events ++ [(i, ⟨e, r⟩)]⟩ := by
  unfold turn at h
  split at h
  · cases h
  · rename_i e k hp
    split at h
    · cases h
    · rename_i r shared hh
      cases h
      exact ⟨e, k, r, shared, hp, hh, rfl⟩

theorem turn_op {e : ε} {k : ρ e → Prog ε ρ Unit} {r : ρ e} {shared : σ} (hp : st.procs i = .op e k)
    (hh : handle st.shared e = some (r, shared)) : st.turn handle i =
      some ⟨shared, Function.update st.procs i (k r), st.events ++ [(i, ⟨e, r⟩)]⟩ := by
  simp only [turn, hp, hh]

/-- **A part of a program that runs through alone** does so in turns of its process. -/
theorem exec_eval {α : Type} {q : Prog ε ρ α} {f : α → Prog ε ρ Unit} {a : α} {s : σ}
    (hp : st.procs i = q >>= f) (hq : q.eval handle st.shared = some (a, s)) :
    ∃ n events, (exec (turn handle) st (List.replicate n i)).2 =
      ⟨s, Function.update st.procs i (f a), events⟩ := by
  induction q generalizing st with
  | ret b =>
      cases hq
      refine ⟨0, st.events, ?_⟩
      have hupd : Function.update st.procs i (f a) = st.procs := by
        rw [show f a = st.procs i from hp.symm, Function.update_eq_self]
      rw [hupd]
      rfl
  | op e k ih =>
      obtain ⟨⟨r, shared⟩, hh, hk⟩ := Option.bind_eq_some_iff.mp hq
      have hturn := turn_op (k := fun r => k r >>= f) hp hh
      have hnext : (⟨shared, Function.update st.procs i (k r >>= f), st.events ++ [(i, ⟨e, r⟩)]⟩ :
          Processes σ ε ρ).procs i = k r >>= f := Function.update_self ..
      obtain ⟨n, events, hexec⟩ := ih r hnext hk
      refine ⟨n + 1, events, ?_⟩
      rw [List.replicate_succ, exec, hturn]
      dsimp only
      rw [hexec, Function.update_idem]

end Processes

end Difuzz
