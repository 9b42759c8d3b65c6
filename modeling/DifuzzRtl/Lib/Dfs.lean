/-
  File:      DifuzzRtl/Lib/Dfs.lean
  Subject:   Depth-first search with a list of visited vertices, and what it collects.

  `dfs succ emit known fuel x visited` is the recursion
      assert known x; if x is visited return nothing;
      mark x; answer emit x followed by the answers for the successors,
  with the list of visited vertices handed from call to call. It answers `none` when the
  assertion fails or the fuel runs out.

  * `Visited` -- what one call, or a row of calls, does to the visited vertices.
  * `dfs_visited` -- on a finite domain closed under successors, with more fuel than unvisited
    vertices, the search answers and the answer is `Visited`.
  * `mem_dfs_iff` -- a search from scratch collects exactly what the reachable vertices emit.
  * `dfs_nodup` -- no vertex is marked twice.
-/
import Mathlib.Data.Finset.Card
import Mathlib.Data.Finset.SDiff
import Mathlib.Logic.Relation
import Mathlib.Tactic.Common

namespace Difuzz

variable {α β : Type} [DecidableEq α]

section Search

variable (succ : α → List α) (emit : α → List β) (known : α → Bool)

def dfs : Nat → α → List α → Option (List β × List α)
  | 0, _, _ => none
  | fuel + 1, x, visited =>
    if known x = false then none
    else if x ∈ visited then some ([], visited)
    else
      (succ x).foldlM (fun s y => (dfs fuel y s.2).map fun r => (s.1 ++ r.1, r.2))
        (emit x, visited ++ [x])

/-- `y` is reached from `x` along successors. -/
abbrev Reach : α → α → Prop := Relation.ReflTransGen fun a b => b ∈ succ a

/-- The calls from `roots` turned `visited` into `visited'` and collected `l`. -/
structure Visited (roots visited : List α) (l : List β) (visited' : List α) : Prop where
  mono : ∀ y ∈ visited, y ∈ visited'
  marked : ∀ y ∈ roots, y ∈ visited'
  reach : ∀ y ∈ visited', y ∉ visited → ∃ r ∈ roots, Reach succ r y
  closed : ∀ y ∈ visited', y ∉ visited → ∀ z ∈ succ y, z ∈ visited'
  emits : ∀ b, b ∈ l ↔ ∃ y ∈ visited', y ∉ visited ∧ b ∈ emit y

end Search

section Spec

variable {succ : α → List α} {emit : α → List β} {known : α → Bool}

omit [DecidableEq α] in
theorem Visited.nil (visited : List α) : Visited succ emit [] visited [] visited where
  mono _ h := h
  marked _ h := absurd h List.not_mem_nil
  reach _ h hn := absurd h hn
  closed _ h hn := absurd h hn
  emits _ := ⟨fun h => absurd h List.not_mem_nil, fun ⟨_, h, hn, _⟩ => absurd h hn⟩

/-- A call and the calls after it. -/
theorem Visited.cons {x : α} {xs v v₁ v₂ : List α} {l₁ l₂ : List β}
    (h₁ : Visited succ emit [x] v l₁ v₁) (h₂ : Visited succ emit xs v₁ l₂ v₂) :
    Visited succ emit (x :: xs) v (l₁ ++ l₂) v₂ where
  mono y hy := h₂.mono y (h₁.mono y hy)
  marked y hy := by
    rcases List.mem_cons.mp hy with rfl | hy
    · exact h₂.mono _ (h₁.marked _ (List.mem_singleton_self _))
    · exact h₂.marked y hy
  reach y hy hn := by
    by_cases hv : y ∈ v₁
    · obtain ⟨r, hr, hp⟩ := h₁.reach y hv hn
      exact ⟨r, by rw [List.mem_singleton.mp hr]; exact List.mem_cons_self, hp⟩
    · obtain ⟨r, hr, hp⟩ := h₂.reach y hy hv
      exact ⟨r, List.mem_cons_of_mem _ hr, hp⟩
  closed y hy hn z hz := by
    by_cases hv : y ∈ v₁
    · exact h₂.mono z (h₁.closed y hv hn z hz)
    · exact h₂.closed y hy hv z hz
  emits b := by
    rw [List.mem_append, h₁.emits, h₂.emits]
    constructor
    · intro hx
      rcases hx with ⟨y, hy, hn, hb⟩ | ⟨y, hy, hn, hb⟩
      · exact ⟨y, h₂.mono y hy, hn, hb⟩
      · exact ⟨y, hy, fun hv => hn (h₁.mono y hv), hb⟩
    · intro hx
      obtain ⟨y, hy, hn, hb⟩ := hx
      by_cases hv : y ∈ v₁
      · exact .inl ⟨y, hv, hn, hb⟩
      · exact .inr ⟨y, hy, hv, hb⟩

/-- The calls for the successors of a fresh vertex make up the call for the vertex. -/
theorem Visited.step {x : α} {v v' : List α} {l : List β} (hx : x ∉ v)
    (h : Visited succ emit (succ x) (v ++ [x]) l v') :
    Visited succ emit [x] v (emit x ++ l) v' := by
  have hxv : x ∈ v' := h.mono x (by simp)
  have hnew : ∀ y, y ∉ v → y ≠ x → y ∉ v ++ [x] := by
    intro y hy hne hm
    rcases List.mem_append.mp hm with hm | hm
    · exact hy hm
    · exact hne (List.mem_singleton.mp hm)
  refine ⟨fun y hy => h.mono y (List.mem_append_left _ hy), fun y hy => ?_, fun y hy hn => ?_,
    fun y hy hn z hz => ?_, fun b => ?_⟩
  · rw [List.mem_singleton.mp hy]
    exact hxv
  · refine ⟨x, List.mem_singleton_self x, ?_⟩
    by_cases hyx : y = x
    · subst hyx
      exact .refl
    · obtain ⟨r, hr, hp⟩ := h.reach y hy (hnew y hn hyx)
      exact .head hr hp
  · by_cases hyx : y = x
    · subst hyx
      exact h.marked z hz
    · exact h.closed y hy (hnew y hn hyx) z hz
  · rw [List.mem_append, h.emits]
    constructor
    · intro hex
      rcases hex with hb | ⟨y, hy, hn, hb⟩
      · exact ⟨x, hxv, hx, hb⟩
      · exact ⟨y, hy, fun hv => hn (List.mem_append_left _ hv), hb⟩
    · intro hex
      obtain ⟨y, hy, hn, hb⟩ := hex
      by_cases hyx : y = x
      · subst hyx
        exact .inl hb
      · exact .inr ⟨y, hy, hnew y hn hyx, hb⟩

/-- The domain vertices a search from `visited` has still to mark. -/
def unvisited (dom : Finset α) (visited : List α) : Finset α := dom \ visited.toFinset

theorem unvisited_anti {dom : Finset α} {v v' : List α} (h : ∀ y ∈ v, y ∈ v') :
    (unvisited dom v').card ≤ (unvisited dom v).card := by
  refine Finset.card_le_card fun y hy => ?_
  simp only [unvisited, Finset.mem_sdiff, List.mem_toFinset] at hy ⊢
  exact ⟨hy.1, fun hv => hy.2 (h y hv)⟩

theorem unvisited_lt {dom : Finset α} {v : List α} {x : α} (hx : x ∈ dom) (hv : x ∉ v) :
    (unvisited dom (v ++ [x])).card < (unvisited dom v).card := by
  refine Finset.card_lt_card (Finset.ssubset_iff_of_subset (fun y hy => ?_) |>.mpr ⟨x, ?_, ?_⟩)
  · simp only [unvisited, Finset.mem_sdiff, List.mem_toFinset] at hy ⊢
    exact ⟨hy.1, fun h => hy.2 (List.mem_append_left _ h)⟩
  · simp [unvisited, hx, hv]
  · simp [unvisited]

variable (emit) in
/-- **The search answers, and its answer is `Visited`.** -/
theorem dfs_visited {dom : Finset α} (hk : ∀ x ∈ dom, known x = true)
    (hs : ∀ x ∈ dom, ∀ y ∈ succ x, y ∈ dom) :
    ∀ (fuel : Nat) (x : α) (v : List α), x ∈ dom → (unvisited dom v).card < fuel →
      ∃ l v', dfs succ emit known fuel x v = some (l, v') ∧ Visited succ emit [x] v l v' := by
  intro fuel
  induction fuel with
  | zero => intro x v _ h; omega
  | succ fuel ih =>
    -- the row of calls, each with the fuel of the induction hypothesis
    have row : ∀ (ys : List α) (acc : List β) (v : List α), (∀ y ∈ ys, y ∈ dom) →
        (unvisited dom v).card < fuel →
        ∃ l v', ys.foldlM (fun s y => (dfs succ emit known fuel y s.2).map
            fun r => (s.1 ++ r.1, r.2)) (acc, v) = some (acc ++ l, v') ∧
          Visited succ emit ys v l v' := by
      intro ys
      induction ys with
      | nil => intro acc v _ _; exact ⟨[], v, by simp, .nil v⟩
      | cons y ys ihy =>
        intro acc v hd hf
        obtain ⟨l₁, v₁, e₁, h₁⟩ := ih y v (hd y List.mem_cons_self) hf
        obtain ⟨l₂, v₂, e₂, h₂⟩ := ihy (acc ++ l₁) v₁ (fun z hz => hd z (List.mem_cons_of_mem _ hz))
          (lt_of_le_of_lt (unvisited_anti h₁.mono) hf)
        refine ⟨l₁ ++ l₂, v₂, ?_, h₁.cons h₂⟩
        rw [List.foldlM_cons, e₁]
        simpa [List.append_assoc] using e₂
    intro x v hx hf
    by_cases hv : x ∈ v
    · refine ⟨[], v, by simp [dfs, hk x hx, hv], ?_⟩
      exact ⟨fun y hy => hy, fun y hy => by rw [List.mem_singleton.mp hy]; exact hv,
        fun y hy hn => absurd hy hn, fun y hy hn => absurd hy hn,
        fun b => ⟨fun h => absurd h List.not_mem_nil, fun ⟨_, h, hn, _⟩ => absurd h hn⟩⟩
    · have hlt := unvisited_lt hx hv
      obtain ⟨l, v', e, h⟩ := row (succ x) (emit x) (v ++ [x]) (hs x hx) (by omega)
      refine ⟨emit x ++ l, v', ?_, .step hv h⟩
      simp only [dfs, hk x hx, if_neg hv]
      exact e

variable (emit) in
/-- **A search from scratch collects what the reachable vertices emit.** -/
theorem mem_dfs_iff {dom : Finset α} (hk : ∀ x ∈ dom, known x = true)
    (hs : ∀ x ∈ dom, ∀ y ∈ succ x, y ∈ dom) {x : α} (hx : x ∈ dom) {fuel : Nat}
    (hf : dom.card < fuel) :
    ∃ l v', dfs succ emit known fuel x [] = some (l, v') ∧
      ∀ b, b ∈ l ↔ ∃ y, Reach succ x y ∧ b ∈ emit y := by
  have hu : (unvisited dom ([] : List α)).card < fuel := by
    simpa [unvisited] using hf
  obtain ⟨l, v', e, h⟩ := dfs_visited emit hk hs fuel x [] hx hu
  have hall : ∀ y, Reach succ x y → y ∈ v' := by
    intro y hp
    induction hp with
    | refl => exact h.marked x (List.mem_singleton_self x)
    | tail _ hs ih => exact h.closed _ ih List.not_mem_nil _ hs
  refine ⟨l, v', e, fun b => ?_⟩
  rw [h.emits]
  constructor
  · intro hex
    obtain ⟨y, hy, hn, hb⟩ := hex
    obtain ⟨r, hr, hp⟩ := h.reach y hy hn
    rw [List.mem_singleton.mp hr] at hp
    exact ⟨y, hp, hb⟩
  · intro hex
    obtain ⟨y, hp, hb⟩ := hex
    exact ⟨y, hall y hp, List.not_mem_nil, hb⟩

/-- **No vertex is marked twice.** -/
theorem dfs_nodup {fuel : Nat} {x : α} {v : List α} {r : List β × List α}
    (h : dfs succ emit known fuel x v = some r) (hv : v.Nodup) : r.2.Nodup := by
  induction fuel generalizing x v r with
  | zero => cases h
  | succ fuel ih =>
      have row : ∀ (ys : List α) (s : List β × List α), s.2.Nodup →
          ys.foldlM (fun s y => (dfs succ emit known fuel y s.2).map fun r => (s.1 ++ r.1, r.2)) s = some r →
          r.2.Nodup := by
        intro ys
        induction ys with
        | nil =>
            intro s hs e
            cases e
            exact hs
        | cons y ys ihy =>
            intro s hs e
            rw [List.foldlM_cons] at e
            obtain ⟨s', hs', e⟩ := Option.bind_eq_some_iff.mp e
            obtain ⟨r', hr', rfl⟩ := Option.map_eq_some_iff.mp hs'
            have hr : r'.2.Nodup := ih hr' hs
            exact ihy (s.1 ++ r'.1, r'.2) hr e
      unfold dfs at h
      split at h
      · cases h
      · split at h
        · cases h
          exact hv
        · rename_i hx
          refine row _ _ (List.nodup_append.mpr ⟨hv, List.nodup_singleton x, fun a ha b hb hab => ?_⟩) h
          rw [hab, List.mem_singleton.mp hb] at ha
          exact hx ha

end Spec

end Difuzz
