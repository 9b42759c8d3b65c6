/-
  File:      DifuzzRtl/Lib/Effects.lean
  Subject:   Computations with a state and exceptions, and what every result of one satisfies.

  * `Ensures` -- every result the computation returns, from any state, satisfies a predicate.
    A computation that raises returns nothing.
  * `Returns` -- the computation returns from every state, with such a result.
  * `Possible` -- it can return such a result.
  * `Avoids` -- it does not raise one exception, and returns only such results.
  * `EStateM.bind_of_ok` and others -- steps of a program whose changes outlive an exception.
  * `Logic` -- what they have in common: rules for `pure`, `>>=` and the loops over lists.
    Other loops are recursive functions, and their rule is the induction over what they recurse on.
-/
import Mathlib.Data.List.Forall2
import Mathlib.Tactic.Common

namespace Difuzz

variable {σ ε α β : Type}

/-- A computation that succeeds, taken apart at its first step. -/
theorem Except.bind_ok {x : Except ε α} {f : α → Except ε β} {y : β} :
    (x >>= f) = .ok y ↔ ∃ a, x = .ok a ∧ f a = .ok y := by
  cases x with
  | error e =>
      refine ⟨fun h => (nomatch h), fun h => ?_⟩
      obtain ⟨_, h, _⟩ := h
      cases h
  | ok a =>
      refine ⟨fun h => ⟨a, rfl, h⟩, fun h => ?_⟩
      obtain ⟨_, h, h'⟩ := h
      cases h
      exact h'

/-- A computation that raises does so in its first step or after it. -/
theorem Except.bind_error {x : Except ε α} {f : α → Except ε β} {e : ε} :
    (x >>= f) = .error e ↔ x = .error e ∨ ∃ a, x = .ok a ∧ f a = .error e := by
  cases x with
  | error e' =>
      refine ⟨fun h => .inl (congrArg _ (Except.error.inj h)), fun h => ?_⟩
      rcases h with h | ⟨_, h, _⟩
      · cases h
        rfl
      · cases h
  | ok a =>
      refine ⟨fun h => .inr ⟨a, rfl, h⟩, fun h => ?_⟩
      rcases h with h | ⟨_, h, h'⟩
      · cases h
      · cases h
        exact h'

/-- A loop without a state raises in one of its rounds. -/
theorem Except.mapM_error {f : α → Except ε β} {l : List α} {e : ε} (h : l.mapM f = .error e) :
    ∃ a ∈ l, f a = .error e := by
  induction l with
  | nil => cases h
  | cons a l ih =>
      rw [List.mapM_cons, Except.bind_error] at h
      rcases h with h | ⟨b, _, h⟩
      · exact ⟨a, List.mem_cons_self, h⟩
      · rcases Except.bind_error.mp h with h | ⟨bs, _, h⟩
        · obtain ⟨a', ha', he⟩ := ih h
          exact ⟨a', List.mem_cons_of_mem _ ha', he⟩
        · cases h

/-- A state computation that succeeds, taken apart at its first step. -/
theorem StateT.bind_ok {m : StateT σ (Except ε) α} {f : α → StateT σ (Except ε) β} {s : σ}
    {r : β × σ} : (m >>= f) s = .ok r ↔ ∃ a s', m s = .ok (a, s') ∧ f a s' = .ok r := by
  have e : (m >>= f) s = (m s).bind fun p => f p.1 p.2 := rfl
  rw [e]
  cases m s with
  | error e =>
      refine ⟨fun h => (nomatch h), fun h => ?_⟩
      obtain ⟨_, _, h, _⟩ := h
      cases h
  | ok x =>
      refine ⟨fun h => ⟨x.1, x.2, rfl, h⟩, fun h => ?_⟩
      obtain ⟨_, _, h, h'⟩ := h
      cases h
      exact h'

theorem StateT.bind_of_ok {m : StateT σ (Except ε) α} {f : α → StateT σ (Except ε) β} {s t : σ} {a : α}
    (h : m s = .ok (a, t)) : (m >>= f) s = f a t := by
  show ((m s).bind fun p => f p.1 p.2) = _
  rw [h]
  rfl

theorem StateT.bind_of_error {m : StateT σ (Except ε) α} {f : α → StateT σ (Except ε) β} {s : σ} {e : ε}
    (h : m s = .error e) : (m >>= f) s = .error e := by
  show ((m s).bind fun p => f p.1 p.2) = _
  rw [h]
  rfl

theorem StateT.pure_ok {a : α} {s : σ} {r : α × σ} :
    (pure a : StateT σ (Except ε) α) s = .ok r ↔ (a, s) = r := by
  show (Except.ok (a, s) : Except ε (α × σ)) = .ok r ↔ _
  rw [Except.ok.injEq]

/-- A loop without a state that succeeds in every round. -/
theorem Except.mapM_ok {f : α → Except ε β} {R : α → β → Prop} {l : List α}
    (h : ∀ a ∈ l, ∃ b, f a = .ok b ∧ R a b) : ∃ bs, l.mapM f = .ok bs ∧ List.Forall₂ R l bs := by
  induction l with
  | nil => exact ⟨[], List.mapM_nil, .nil⟩
  | cons a l ih =>
      obtain ⟨b, hb, hR⟩ := h a List.mem_cons_self
      obtain ⟨bs, hbs, hall⟩ := ih fun x hx => h x (List.mem_cons_of_mem _ hx)
      refine ⟨b :: bs, ?_, .cons hR hall⟩
      rw [List.mapM_cons, hb, hbs]
      rfl

theorem Except.mapM_ok_iff {f : α → Except ε β} {l : List α} {bs : List β} :
    l.mapM f = .ok bs ↔ List.Forall₂ (fun a b => f a = .ok b) l bs := by
  induction l generalizing bs with
  | nil =>
      rw [List.mapM_nil, List.forall₂_nil_left_iff]
      exact ⟨fun h => (Except.ok.inj h).symm, fun h => h ▸ rfl⟩
  | cons a l ih =>
      rw [List.mapM_cons, Except.bind_ok, List.forall₂_cons_left_iff]
      refine exists_congr fun b => ?_
      rw [Except.bind_ok]
      constructor
      · intro h
        obtain ⟨hb, cs, hcs, h⟩ := h
        exact ⟨cs, hb, ih.mp hcs, (Except.ok.inj h).symm⟩
      · intro h
        obtain ⟨cs, hb, hcs, rfl⟩ := h
        exact ⟨hb, cs, ih.mpr hcs, rfl⟩

/-- A loop in which nothing happens but a computation. -/
theorem mapM_eq_pure {m : Type → Type} [Monad m] [LawfulMonad m] {f : α → m β} {g : α → β} {l : List α}
    (h : ∀ a ∈ l, f a = pure (g a)) : l.mapM f = pure (l.map g) := by
  induction l with
  | nil => exact List.mapM_nil
  | cons a l ih =>
      rw [List.mapM_cons, h a List.mem_cons_self, ih fun x hx => h x (List.mem_cons_of_mem _ hx)]
      simp

theorem Except.mapM_eq {f : α → Except ε β} {g : α → β} {l : List α} (h : ∀ a ∈ l, f a = .ok (g a)) :
    l.mapM f = .ok (l.map g) := mapM_eq_pure h

/-- A computation without a state, run in one with a state. -/
def lift (x : Except ε α) : StateT σ (Except ε) α := fun s => x.map fun a => (a, s)

/-! ## 1. Rules for programs -/

/-- A way to say that the results of a program satisfy a predicate. -/
structure Logic (M : (α : Type) → StateT σ (Except ε) α → (α → Prop) → Prop) : Prop where
  pure : ∀ {α : Type} {a : α} {P : α → Prop}, P a → M α (Pure.pure a) P
  bind : ∀ {α β : Type} {m : StateT σ (Except ε) α} {f : α → StateT σ (Except ε) β} {Q : α → Prop}
    {P : β → Prop}, M α m Q → (∀ a, Q a → M β (f a) P) → M β (m >>= f) P

namespace Logic

variable {M : (α : Type) → StateT σ (Except ε) α → (α → Prop) → Prop} (hM : Logic M)
  {m : StateT σ (Except ε) α} {P Q : α → Prop}

include hM

theorem mono (h : M α m Q) (hPQ : ∀ a, Q a → P a) : M α m P := by
  rw [← bind_pure m]
  exact hM.bind h fun a ha => hM.pure (hPQ a ha)

theorem lift {x : Except ε α} {a : α} (hx : x = .ok a) (h : P a) : M α (Difuzz.lift x) P := by
  subst hx
  exact hM.pure h

omit hM in
theorem ite {c : Prop} [Decidable c] {m₁ m₂ : StateT σ (Except ε) α} (h₁ : c → M α m₁ P)
    (h₂ : ¬ c → M α m₂ P) : M α (if c then m₁ else m₂) P := by
  by_cases h : c
  · rw [if_pos h]
    exact h₁ h
  · rw [if_neg h]
    exact h₂ h

/-- A loop over a list that is related to another one, entry by entry. -/
theorem mapM₂ {γ : Type} {f : α → StateT σ (Except ε) β} {S : γ → α → Prop} {R : γ → β → Prop}
    {ks : List γ} {l : List α} (hl : List.Forall₂ S ks l)
    (h : ∀ k ∈ ks, ∀ a, S k a → M β (f a) (R k)) : M (List β) (l.mapM f) (List.Forall₂ R ks) := by
  induction hl with
  | nil =>
      rw [List.mapM_nil]
      exact hM.pure List.Forall₂.nil
  | @cons k a ks l hk hl ih =>
      rw [List.mapM_cons]
      refine hM.bind (h k List.mem_cons_self a hk) fun b hb => ?_
      refine hM.bind (ih fun x hx => h x (List.mem_cons_of_mem _ hx)) fun bs hbs => ?_
      exact hM.pure (List.Forall₂.cons hb hbs)

/-- A loop that builds a list: each entry is related to what it was built from. -/
theorem mapM {f : α → StateT σ (Except ε) β} {R : α → β → Prop} {l : List α}
    (h : ∀ a ∈ l, M β (f a) (R a)) : M (List β) (l.mapM f) (List.Forall₂ R l) := by
  refine hM.mapM₂ (List.forall₂_same.mpr fun a _ => Eq.refl a) fun k hk a hka => ?_
  rw [← hka]
  exact h k hk

end Logic

/-! ## 2. Results that are returned -/

/-- Every result the computation returns satisfies the predicate. -/
def Ensures (m : StateT σ (Except ε) α) (P : α → Prop) : Prop :=
  ∀ s a s', m s = .ok (a, s') → P a

namespace Ensures

variable {m : StateT σ (Except ε) α} {P Q : α → Prop}

theorem mono (h : Ensures m Q) (hPQ : ∀ a, Q a → P a) : Ensures m P :=
  fun s a s' hm => hPQ a (h s a s' hm)

theorem and (hP : Ensures m P) (hQ : Ensures m Q) : Ensures m fun a => P a ∧ Q a :=
  fun s a s' hm => ⟨hP s a s' hm, hQ s a s' hm⟩

theorem triv : Ensures m fun _ => True := fun _ _ _ _ => trivial

theorem pure {a : α} (h : P a) : Ensures (Pure.pure a : StateT σ (Except ε) α) P := by
  intro s b s' hm
  have := StateT.pure_ok.mp hm
  cases this
  exact h

theorem throw {e : ε} : Ensures (MonadExcept.throw e : StateT σ (Except ε) α) P :=
  fun _ _ _ hm => (nomatch hm)

theorem bind {f : α → StateT σ (Except ε) β} {R : β → Prop} (hm : Ensures m Q)
    (hf : ∀ a, Q a → Ensures (f a) R) : Ensures (m >>= f) R := by
  intro s b s' h
  obtain ⟨a, t, ha, hb⟩ := StateT.bind_ok.mp h
  exact hf a (hm s a t ha) t b s' hb

theorem ite {c : Prop} [Decidable c] {m₁ m₂ : StateT σ (Except ε) α} (h₁ : c → Ensures m₁ P)
    (h₂ : ¬ c → Ensures m₂ P) : Ensures (if c then m₁ else m₂) P :=
  Logic.ite (M := fun _ m P => Ensures m P) h₁ h₂

/-- A step whose result does not matter. -/
theorem bind' {f : α → StateT σ (Except ε) β} {R : β → Prop} (hf : ∀ a, Ensures (f a) R) :
    Ensures (m >>= f) R :=
  bind triv fun a _ => hf a

theorem logic : Logic fun (α : Type) (m : StateT σ (Except ε) α) P => Ensures m P where
  pure := pure
  bind := bind

theorem mapM {f : α → StateT σ (Except ε) β} {R : α → β → Prop} {l : List α}
    (h : ∀ a ∈ l, Ensures (f a) (R a)) : Ensures (l.mapM f) (List.Forall₂ R l) := logic.mapM h

/-- A loop with an accumulator: the invariant of the loop. -/
theorem foldlM {f : β → α → StateT σ (Except ε) β} {I : β → Prop} {l : List α} {b : β} (hb : I b)
    (h : ∀ b, I b → ∀ a ∈ l, Ensures (f b a) I) : Ensures (l.foldlM f b) I := by
  induction l generalizing b with
  | nil =>
      rw [List.foldlM_nil]
      exact pure hb
  | cons a l ih =>
      rw [List.foldlM_cons]
      refine bind (h b hb a List.mem_cons_self) fun b' hb' => ?_
      exact ih hb' fun b hb x hx => h b hb x (List.mem_cons_of_mem _ hx)

theorem mapM₂ {γ : Type} {f : α → StateT σ (Except ε) β} {S : γ → α → Prop} {R : γ → β → Prop}
    {ks : List γ} {l : List α} (hl : List.Forall₂ S ks l)
    (h : ∀ k ∈ ks, ∀ a, S k a → Ensures (f a) (R k)) : Ensures (l.mapM f) (List.Forall₂ R ks) :=
  logic.mapM₂ hl h

end Ensures

theorem lift_ok {x : Except ε α} {s : σ} {r : α × σ} :
    (lift x : StateT σ (Except ε) α) s = .ok r ↔ x = .ok r.1 ∧ r.2 = s := by
  cases x with
  | error e => exact ⟨fun h => (nomatch h), fun h => (nomatch h.1)⟩
  | ok a =>
      show (Except.ok (a, s) : Except ε (α × σ)) = .ok r ↔ _
      rw [Except.ok.injEq, Except.ok.injEq]
      constructor
      · rintro rfl
        exact ⟨rfl, rfl⟩
      · intro hx
        obtain ⟨h₁, h₂⟩ := hx
        exact Prod.ext h₁ h₂.symm

theorem Ensures.lift {x : Except ε α} {P : α → Prop} (h : ∀ a, x = .ok a → P a) :
    Ensures (Difuzz.lift x : StateT σ (Except ε) α) P :=
  fun _ a _ hm => h a (lift_ok.mp hm).1

/-! ## 3. Computations that always return, and results that are possible -/

/-- The computation returns from every state, with a result that satisfies the predicate. -/
def Returns (m : StateT σ (Except ε) α) (P : α → Prop) : Prop :=
  ∀ s, ∃ a s', m s = .ok (a, s') ∧ P a

/-- A result that satisfies the predicate is possible, and leaves any state that one likes. -/
def Possible (m : StateT σ (Except ε) α) (P : α → Prop) : Prop :=
  ∃ a, P a ∧ ∀ s', ∃ s, m s = .ok (a, s')

namespace Returns

variable {m : StateT σ (Except ε) α} {P Q : α → Prop}

theorem bind {f : α → StateT σ (Except ε) β} {R : β → Prop} (hm : Returns m Q)
    (hf : ∀ a, Q a → Returns (f a) R) : Returns (m >>= f) R := by
  intro s
  obtain ⟨a, t, ha, hq⟩ := hm s
  obtain ⟨b, s', hb, hr⟩ := hf a hq t
  exact ⟨b, s', StateT.bind_ok.mpr ⟨a, t, ha, hb⟩, hr⟩

/-- A step whose result does not matter. -/
theorem bind' {f : α → StateT σ (Except ε) β} {R : β → Prop} (hm : Returns m Q)
    (hf : ∀ a, Returns (f a) R) : Returns (m >>= f) R :=
  hm.bind fun a _ => hf a

theorem pure {a : α} (h : P a) : Returns (Pure.pure a : StateT σ (Except ε) α) P :=
  fun s => ⟨a, s, rfl, h⟩

theorem logic : Logic fun (α : Type) (m : StateT σ (Except ε) α) P => Returns m P where
  pure := pure
  bind := bind

theorem mono (h : Returns m Q) (hPQ : ∀ a, Q a → P a) : Returns m P := logic.mono h hPQ

/-- The result that is returned is the only one. -/
theorem ensures (h : Returns m P) : Ensures m P := by
  intro s a s' hm
  obtain ⟨b, t, hb, hP⟩ := h s
  rw [hm, Except.ok.injEq, Prod.mk.injEq] at hb
  exact hb.1 ▸ hP

/-- What every result satisfies, the one that is returned satisfies. -/
theorem and_ensures (h : Returns m P) (hQ : Ensures m Q) : Returns m fun a => P a ∧ Q a := by
  intro s
  obtain ⟨a, s', hm, ha⟩ := h s
  exact ⟨a, s', hm, ha, hQ s a s' hm⟩

theorem ite {c : Prop} [Decidable c] {m₁ m₂ : StateT σ (Except ε) α} (h₁ : c → Returns m₁ P)
    (h₂ : ¬ c → Returns m₂ P) : Returns (if c then m₁ else m₂) P :=
  Logic.ite (M := fun _ m P => Returns m P) h₁ h₂

end Returns

namespace Possible

theorem bind {m : StateT σ (Except ε) α} {f : α → StateT σ (Except ε) β} {Q : α → Prop} {R : β → Prop}
    (hm : Possible m Q) (hf : ∀ a, Q a → Possible (f a) R) : Possible (m >>= f) R := by
  obtain ⟨a, ha, hma⟩ := hm
  obtain ⟨b, hb, hfb⟩ := hf a ha
  refine ⟨b, hb, fun s' => ?_⟩
  obtain ⟨t, ht⟩ := hfb s'
  obtain ⟨s, hs⟩ := hma t
  exact ⟨s, StateT.bind_ok.mpr ⟨a, t, hs, ht⟩⟩

theorem logic : Logic fun (α : Type) (m : StateT σ (Except ε) α) P => Possible m P where
  pure := fun h => ⟨_, h, fun s' => ⟨s', rfl⟩⟩
  bind := bind

end Possible

/-! ## 4. Exceptions that are not raised -/

/-- The computation does not raise `e`, and its results satisfy the predicate. -/
def Avoids (e : ε) (m : StateT σ (Except ε) α) (P : α → Prop) : Prop :=
  ∀ s, m s ≠ .error e ∧ ∀ a s', m s = .ok (a, s') → P a

namespace Avoids

variable {e : ε}

theorem logic : Logic fun (α : Type) (m : StateT σ (Except ε) α) P => Avoids e m P where
  pure := by
    intro α a P h s
    refine ⟨fun hs => (nomatch hs), fun b s' hs => ?_⟩
    cases hs
    exact h
  bind := by
    intro α β m f Q P hm hf s
    have hsplit : (m >>= f) s = (m s).bind fun p => f p.1 p.2 := rfl
    rw [hsplit]
    cases hs : m s with
    | error e' =>
        refine ⟨fun he => (hm s).1 ?_, fun b s' hb => (nomatch hb)⟩
        rw [hs, Except.error.inj he]
    | ok x => exact hf x.1 ((hm s).2 x.1 x.2 hs) x.2

theorem lift {x : Except ε α} {P : α → Prop} (hx : x ≠ .error e) (h : ∀ a, x = .ok a → P a) :
    Avoids e (Difuzz.lift x : StateT σ (Except ε) α) P := by
  intro s
  refine ⟨fun hs => hx ?_, fun a s' hs => h a (lift_ok.mp hs).1⟩
  cases x with
  | error e' =>
      have he : e' = e := Except.error.inj hs
      rw [he]
  | ok a => cases hs

theorem ite {c : Prop} [Decidable c] {m₁ m₂ : StateT σ (Except ε) α} {P : α → Prop}
    (h₁ : c → Avoids e m₁ P) (h₂ : ¬ c → Avoids e m₂ P) : Avoids e (if c then m₁ else m₂) P :=
  Logic.ite (M := fun _ m P => Avoids e m P) h₁ h₂

end Avoids

/-! ## 5. Changes in place -/

section InPlace

variable {x : EStateM ε σ α} {f : α → EStateM ε σ β} {s t : σ}

theorem EStateM.bind_of_ok {a : α} (h : x s = .ok a t) : (x >>= f) s = f a t := by
  show EStateM.bind x f s = _
  rw [EStateM.bind, h]

theorem EStateM.bind_of_error {e : ε} (h : x s = .error e t) : (x >>= f) s = .error e t := by
  show EStateM.bind x f s = _
  rw [EStateM.bind, h]

/-- The handler goes on with what the program has changed before it raised. -/
theorem EStateM.tryCatch_of_error {e : ε} {handle : ε → EStateM ε σ α} (h : x s = .error e t) :
    tryCatch x handle s = handle e t := by
  show EStateM.tryCatch x handle s = _
  rw [EStateM.tryCatch, h]
  rfl

end InPlace

end Difuzz
