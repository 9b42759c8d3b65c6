/-
  File:      DifuzzRtl/Coverage/Reachability.lean
  Subject:   The mux-source analysis is reachability in the graph of the ledger.

  * `Referenced` -- what the analysis needs of a LowForm module. Nodes and wires may form cycles.
  * `Edge`, `Through` -- the edges of the graph, and those that lead into a node or a wire.
  * `mem_step` -- one backward step of the search is one edge into a node or a wire.
  * `mem_findSrcs` -- the search answers, and collects the sources of all paths.
  * `muxSrcs_spec` -- grouping the muxes by the text of their select names loses nothing.
  * `muxSrcs_iff_reachable` -- the result.
-/
import DifuzzRtl.Coverage.GraphLedger
import Mathlib.Data.Finset.Dedup

namespace Difuzz.Coverage

open Firrtl

/-! ## 1. Names and paths -/

/-- The names an expression mentions, through any operand. -/
def allNames : Expr → List String
  | .ref n _ => [n]
  | .subField e _ _ => allNames e
  | .mux c t f _ => allNames c ++ allNames t ++ allNames f
  | .validIf c e _ => allNames c ++ allNames e
  | .doPrim1 _ a _ _ => allNames a
  | .doPrim2 _ a b _ _ => allNames a ++ allNames b
  | _ => []

/-- The muxes of a module. -/
def Module.muxes (m : Module) : List Mux := m.leaves.flatMap fun s => s.exprs.flatMap Expr.muxes

/-- What the analysis relies on: distinct names, every mentioned name declared, identifiers that are
    non-empty and have no comma. -/
structure Referenced (m : Module) : Prop where
  nodup : m.declared.Nodup
  resolved : ∀ s ∈ m.leaves, ∀ e ∈ s.exprs, ∀ n ∈ allNames e, n ∈ m.declared
  commaFree : ∀ n ∈ m.declared, n ≠ "" ∧ ',' ∉ n.toList

/-- An edge of the graph. -/
def Edge (m : Module) (x y : String) : Prop := ∃ s ∈ m.leaves, y ∈ findEdge x s

/-- The name of a node or of a wire. -/
def Passing (m : Module) (y : String) : Prop :=
  (∃ e, .defNode y e ∈ m.leaves) ∨ ∃ t, .defWire y t ∈ m.leaves

/-- An edge into a node or a wire. -/
def Through (m : Module) (x y : String) : Prop := Edge m x y ∧ Passing m y

/-- The name of a port, a register, a memory or an instance. -/
def IsSource (m : Module) (x : String) : Prop :=
  (∃ p ∈ m.ports, p.name = x) ∨ (∃ r, .defRegister r ∈ m.leaves ∧ r.name = x) ∨
    (∃ d, .defMemory d ∈ m.leaves ∧ d.name = x) ∨ ∃ i, .defInstance i ∈ m.leaves ∧ i.name = x

theorem findNames_subset {e : Expr} : ∀ n ∈ findNames e, n ∈ allNames e := by
  induction e with
  | ref => exact fun n h => h
  | subField e f t ih => exact ih
  | uintLit => exact fun n h => h
  | sintLit => exact fun n h => h
  | mux c a b t _ iha ihb =>
      intro n h
      simp only [findNames, allNames, List.mem_append] at h ⊢
      exact h.elim (fun h => .inl (.inr (iha n h))) fun h => .inr (ihb n h)
  | validIf => exact fun n h => absurd h List.not_mem_nil
  | doPrim1 op a cs t ih => exact ih
  | doPrim2 op a b cs t iha ihb =>
      intro n h
      simp only [findNames, allNames, List.mem_append] at h ⊢
      exact h.imp (iha n) (ihb n)

/-- The names of a select stand in the expression. -/
theorem muxes_names {e : Expr} {μ : Mux} (h : μ ∈ Expr.muxes e) :
    ∀ n ∈ allNames μ.cond, n ∈ allNames e := by
  intro n hn
  induction e with
  | ref => cases h
  | subField e f t ih => exact ih h
  | uintLit => cases h
  | sintLit => cases h
  | mux c a b t ihc iha ihb =>
      simp only [Expr.muxes, List.mem_cons, List.mem_append] at h
      simp only [allNames, List.mem_append]
      rcases h with rfl | (h | h) | h
      · exact .inl (.inl hn)
      · exact .inl (.inl (ihc h))
      · exact .inl (.inr (iha h))
      · exact .inr (ihb h)
  | validIf c e t ihc ihe =>
      simp only [Expr.muxes, List.mem_append] at h
      simp only [allNames, List.mem_append]
      exact h.imp ihc ihe
  | doPrim1 op a cs t ih => exact ih h
  | doPrim2 op a b cs t iha ihb =>
      simp only [Expr.muxes, List.mem_append] at h
      simp only [allNames, List.mem_append]
      exact h.imp iha ihb

/-! ## 2. The text of a list of names -/

/-- Texts joined by a comma and a blank are told apart when they are non-empty and have no
    comma. -/
theorem intercalate_inj {ns ms : List (List Char)} (hn : ∀ n ∈ ns, n ≠ [] ∧ ',' ∉ n)
    (hm : ∀ n ∈ ms, n ≠ [] ∧ ',' ∉ n)
    (h : [',', ' '].intercalate ns = [',', ' '].intercalate ms) : ns = ms := by
  -- what follows a first element: nothing, or the separator and the rest
  have shape : ∀ (n : List Char) (ns : List (List Char)), ∃ rest,
      [',', ' '].intercalate (n :: ns) = n ++ rest ∧
      ((ns = [] ∧ rest = []) ∨
        (ns ≠ [] ∧ rest = ',' :: ' ' :: [',', ' '].intercalate ns)) := by
    intro n ns
    cases ns with
    | nil => exact ⟨[], by simp, .inl ⟨rfl, rfl⟩⟩
    | cons n' ns => exact ⟨_, by simp, .inr ⟨by simp, rfl⟩⟩
  -- a comma-free text is what stands before the first comma
  have cut : ∀ {a b r t : List Char}, ',' ∉ a → ',' ∉ b → (∀ c ∈ r.head?, c = ',') →
      (∀ c ∈ t.head?, c = ',') → a ++ r = b ++ t → a = b ∧ r = t := by
    intro a
    induction a with
    | nil =>
        intro b r t _ hb hr _ e
        cases b with
        | nil => exact ⟨rfl, e⟩
        | cons c b =>
            rw [List.nil_append, List.cons_append] at e
            have hc : c = ',' := hr c (by simp [e])
            exact absurd (by simp [hc]) hb
    | cons c a ih =>
        intro b r t ha hb hr ht e
        cases b with
        | nil =>
            rw [List.nil_append, List.cons_append] at e
            have hc : c = ',' := ht c (by simp [← e])
            exact absurd (by simp [hc]) ha
        | cons c' b =>
            rw [List.cons_append, List.cons_append, List.cons.injEq] at e
            simp only [List.mem_cons, not_or] at ha hb
            obtain ⟨rfl, rfl⟩ := ih ha.2 hb.2 hr ht e.2
            exact ⟨by rw [e.1], rfl⟩
  induction ns generalizing ms with
  | nil =>
      cases ms with
      | nil => rfl
      | cons m ms =>
          obtain ⟨rest, e, _⟩ := shape m ms
          rw [e] at h
          simp at h
          exact absurd h.1 (hm m List.mem_cons_self).1
  | cons n ns ih =>
      cases ms with
      | nil =>
          obtain ⟨rest, e, _⟩ := shape n ns
          rw [e] at h
          simp at h
          exact absurd h.1 (hn n List.mem_cons_self).1
      | cons m ms =>
          obtain ⟨r, er, hr⟩ := shape n ns
          obtain ⟨t, et, ht⟩ := shape m ms
          rw [er, et] at h
          obtain ⟨rfl, rfl⟩ := cut (hn n List.mem_cons_self).2 (hm m List.mem_cons_self).2
            (by rcases hr with ⟨_, rfl⟩ | ⟨_, rfl⟩ <;> simp)
            (by rcases ht with ⟨_, rfl⟩ | ⟨_, rfl⟩ <;> simp) h
          rcases hr with ⟨rfl, rfl⟩ | ⟨_, rfl⟩
          · rcases ht with ⟨rfl, _⟩ | ⟨_, e⟩
            · rfl
            · cases e
          · rcases ht with ⟨_, e⟩ | ⟨_, e⟩
            · cases e
            · rw [List.cons.injEq, List.cons.injEq] at e
              rw [ih (fun x hx => hn x (List.mem_cons_of_mem _ hx))
                (fun x hx => hm x (List.mem_cons_of_mem _ hx)) e.2.2]

/-- Lists of legal names have different texts. -/
theorem listBufferToString_inj {ns ms : List String} (hn : ∀ n ∈ ns, n ≠ "" ∧ ',' ∉ n.toList)
    (hm : ∀ n ∈ ms, n ≠ "" ∧ ',' ∉ n.toList)
    (h : GraphLedger.listBufferToString ns = GraphLedger.listBufferToString ms) : ns = ms := by
  have chars : ∀ {l : List String}, (∀ n ∈ l, n ≠ "" ∧ ',' ∉ n.toList) →
      ∀ n ∈ l.map String.toList, n ≠ [] ∧ ',' ∉ n := by
    intro l hl n hn
    obtain ⟨x, hx, rfl⟩ := List.mem_map.mp hn
    exact ⟨fun e => (hl x hx).1 (String.toList_eq_nil_iff.mp e), (hl x hx).2⟩
  have ht := congrArg String.toList h
  simp only [GraphLedger.listBufferToString, String.toList_append, String.toList_intercalate,
    List.append_cancel_right_eq, List.append_cancel_left_eq] at ht
  exact List.map_injective_iff.mpr (fun _ _ => String.toList_injective)
    (intercalate_inj (chars hn) (chars hm) ht)

/-! ## 3. The backward search -/

theorem mem_nodesOf_stmt {m : Module} {s : Stmt} (hs : s ∈ m.leaves) {v : Node} (h : Node.ofStmt s = some v) :
    v ∈ nodesOf m :=
  List.mem_append_right _ (List.mem_filterMap.mpr ⟨s, hs, h⟩)

/-- Vertices that pass a value on are the nodes and the wires. -/
theorem passes_inv {m : Module} {v : Node} (hv : v ∈ nodesOf m) (h : v.passes = true) :
    Passing m v.name := by
  rcases List.mem_append.mp hv with hv | hv
  · obtain ⟨q, _, rfl⟩ := List.mem_map.mp hv
    cases h
  · obtain ⟨s, hs, e⟩ := List.mem_filterMap.mp hv
    cases s <;> simp [Node.ofStmt] at e <;> subst e
    · exact .inr ⟨_, hs⟩
    · cases h
    · cases h
    · cases h
    · exact .inl ⟨_, hs⟩

/-- The vertex of a node or a wire. -/
theorem passing_node {m : Module} {y : String} (h : Passing m y) :
    ∃ v ∈ nodesOf m, v.name = y ∧ v.passes = true := by
  rcases h with ⟨e, h⟩ | ⟨t, h⟩
  · exact ⟨.defNode y, mem_nodesOf_stmt h rfl, rfl, rfl⟩
  · exact ⟨.defWire y, mem_nodesOf_stmt h rfl, rfl, rfl⟩

section Search

variable {m : Module} (hm : Referenced m) (σ : SetOrder)

include hm

theorem contains_iff {x : String} :
    (GraphLedger.parseModule (.module m)).graphMap.contains x = true ↔ x ∈ m.declared := by
  rw [← nodesOf_names, List.mem_map]
  unfold Dict.contains
  rw [Option.isSome_iff_exists]
  constructor
  · intro h
    obtain ⟨v, hv⟩ := h
    exact ⟨v, parseModule_get?_inv hm.nodup hv⟩
  · intro h
    obtain ⟨v, hv, rfl⟩ := h
    exact ⟨v, parseModule_get? hm.nodup hv⟩

theorem mem_keys {x : String} :
    x ∈ (GraphLedger.parseModule (.module m)).graphMap.keys ↔ x ∈ m.declared := by
  unfold Dict.keys
  rw [parseModule_entries hm.nodup, List.map_map, ← nodesOf_names]
  rfl

/-- A declared name has one vertex. -/
theorem node_unique {v w : Node} (hv : v ∈ nodesOf m) (hw : w ∈ nodesOf m) (h : v.name = w.name) :
    v = w := by
  have e₁ := parseModule_get? hm.nodup hv
  rw [h, parseModule_get? hm.nodup hw] at e₁
  exact (Option.some.inj e₁).symm

/-- What an edge starts from is declared. -/
theorem edge_declared {x y : String} (h : Edge m x y) : x ∈ m.declared := by
  obtain ⟨s, hs, he⟩ := h
  have hres : ∀ e ∈ s.exprs, isUsed x e = true → x ∈ m.declared := fun e he hu =>
    hm.resolved s hs e he x (findNames_subset x (isUsed_iff.mp hu))
  cases s <;> simp only [findEdge, List.not_mem_nil] at he
  · split at he
    · rename_i hu
      exact hres _ (by simp [Stmt.exprs]) hu
    · cases he
  · split at he
    · rename_i hu
      exact hres _ (by simp [Stmt.exprs]) hu
    · cases he
  · split at he
    · rename_i hu
      exact hres _ (by simp [Stmt.exprs]) hu
    · cases he

/-- **One backward step of the search is one edge into a node or a wire.** -/
theorem mem_step {x y : String} :
    x ∈ (GraphLedger.parseModule (.module m)).step σ y ↔ Through m x y := by
  have hsrc : x ∈ (GraphLedger.parseModule (.module m)).sources y ↔ x ∈ m.declared ∧ Edge m x y := by
    unfold GraphLedger.sources
    rw [List.mem_filter, mem_keys hm, decide_eq_true_iff]
    exact and_congr_right fun _ => List.mem_flatMap
  constructor
  · intro h
    unfold GraphLedger.step at h
    split at h
    · rename_i v hv
      obtain ⟨hvm, rfl⟩ := parseModule_get?_inv hm.nodup hv
      split at h
      · rename_i hp
        rw [SetOrder.mem_toSeq, hsrc] at h
        exact ⟨h.2, passes_inv hvm hp⟩
      · cases h
    · cases h
  · intro hx
    obtain ⟨he, hp⟩ := hx
    obtain ⟨v, hv, rfl, hpass⟩ := passing_node hp
    unfold GraphLedger.step
    rw [parseModule_get? hm.nodup hv]
    simp only [hpass, if_true, SetOrder.mem_toSeq]
    exact hsrc.mpr ⟨edge_declared hm he, he⟩

/-- **The search answers, and collects the sources of all paths.** -/
theorem mem_findSrcs {y : String} (hy : y ∈ m.declared) :
    ∃ l, (GraphLedger.parseModule (.module m)).findSrcs σ y = some l ∧
      ∀ x, x ∈ l ↔ Relation.ReflTransGen (Through m) x y ∧
        x ∈ (GraphLedger.parseModule (.module m)).source x := by
  let g := GraphLedger.parseModule (.module m)
  have hk : ∀ x ∈ m.declared.toFinset, g.graphMap.contains x = true :=
    fun x hx => (contains_iff hm).mpr (List.mem_toFinset.mp hx)
  have hs : ∀ x ∈ m.declared.toFinset, ∀ z ∈ g.step σ x, z ∈ m.declared.toFinset := by
    intro x _ z hz
    exact List.mem_toFinset.mpr (edge_declared hm ((mem_step hm σ).mp hz).1)
  have hlen : g.graphMap.entries.length = m.declared.length := by
    rw [parseModule_entries hm.nodup, List.length_map, ← nodesOf_names, List.length_map]
  have hf : m.declared.toFinset.card < g.graphMap.entries.length + 1 := by
    have := List.toFinset_card_le m.declared
    omega
  obtain ⟨l, v', e, hl⟩ := mem_dfs_iff g.source hk hs (List.mem_toFinset.mpr hy) hf
  refine ⟨l, by unfold GraphLedger.findSrcs; rw [e]; rfl, fun x => ?_⟩
  have hreach : ∀ z, Reach (g.step σ) y z ↔ Relation.ReflTransGen (Through m) z y := by
    intro z
    have hswap : (fun a b => b ∈ g.step σ a) = Function.swap (Through m) :=
      funext fun a => funext fun b => propext (mem_step hm σ)
    unfold Reach
    rw [hswap]
    exact Relation.reflTransGen_swap
  -- a vertex that emits a name emits its own
  have hown : ∀ z, x ∈ g.source z → z = x := by
    intro z hz
    unfold GraphLedger.source at hz
    split at hz
    · split at hz
      · cases hz
      · exact (List.mem_singleton.mp hz).symm
    · cases hz
  rw [hl]
  constructor
  · intro h
    obtain ⟨z, hz, hx⟩ := h
    obtain rfl := hown z hx
    exact ⟨(hreach z).mp hz, hx⟩
  · intro h
    obtain ⟨hp, hx⟩ := h
    exact ⟨x, (hreach x).mpr hp, hx⟩

theorem mem_ctrlsSrcs {ctrls : List String} (hc : ∀ n ∈ ctrls, n ∈ m.declared) :
    ∃ l, (GraphLedger.parseModule (.module m)).ctrlsSrcs σ ctrls = some l ∧
      ∀ x, x ∈ l ↔ (∃ n ∈ ctrls, Relation.ReflTransGen (Through m) x n) ∧
        x ∈ (GraphLedger.parseModule (.module m)).source x := by
  have hall : ∃ ls, ctrls.mapM ((GraphLedger.parseModule (.module m)).findSrcs σ) = some ls ∧
      ∀ x, x ∈ ls.flatten ↔ (∃ n ∈ ctrls, Relation.ReflTransGen (Through m) x n) ∧
        x ∈ (GraphLedger.parseModule (.module m)).source x := by
    induction ctrls with
    | nil => exact ⟨[], by simp, by simp⟩
    | cons n ctrls ih =>
        obtain ⟨l, hl, hx⟩ := mem_findSrcs hm σ (hc n List.mem_cons_self)
        obtain ⟨ls, hls, hxs⟩ := ih fun k hk => hc k (List.mem_cons_of_mem _ hk)
        refine ⟨l :: ls, by rw [List.mapM_cons, hl, hls]; rfl, fun x => ?_⟩
        rw [List.flatten_cons, List.mem_append, hx, hxs]
        simp only [List.mem_cons, exists_eq_or_imp]
        rw [← or_and_right]
  obtain ⟨ls, hls, hx⟩ := hall
  refine ⟨ls.flatten.dedup, by unfold GraphLedger.ctrlsSrcs; rw [hls]; rfl, fun x => ?_⟩
  rw [List.mem_dedup, hx]

/-! ## 4. The sources of the muxes -/

/-- The select names of a mux are declared. -/
theorem cond_declared {μ : Mux} (hμ : μ ∈ Module.muxes m) :
    ∀ n ∈ findNames μ.cond, n ∈ m.declared := by
  obtain ⟨s, hs, hμ⟩ := List.mem_flatMap.mp hμ
  obtain ⟨e, he, hμ⟩ := List.mem_flatMap.mp hμ
  intro n hn
  exact hm.resolved s hs e he n (muxes_names hμ n (findNames_subset n hn))

/-- **Grouping loses nothing**: the search answers, the entries are the muxes, each with the
    sources of its own select. -/
theorem muxSrcs_spec :
    ∃ d, (GraphLedger.parseModule (.module m)).muxSrcs σ = some d ∧
      (∀ x ∈ d.entries, x.1 ∈ Module.muxes m ∧
        (GraphLedger.parseModule (.module m)).ctrlsSrcs σ (findNames x.1.cond) = some x.2) ∧
      ∀ μ ∈ Module.muxes m, ∃ srcs, (μ, srcs) ∈ d.entries := by
  let g := GraphLedger.parseModule (.module m)
  let group : List String → List Mux := fun ctrls => g.muxes.filter fun μ =>
    GraphLedger.listBufferToString (findNames μ.cond) = GraphLedger.listBufferToString ctrls
  -- the invariant of the loop over the lists of select names
  let Ok : Dict Mux (List String) → Prop := fun d => ∀ x ∈ d.entries, x.1 ∈ Module.muxes m ∧
    g.ctrlsSrcs σ (findNames x.1.cond) = some x.2
  have inner : ∀ (ms : List Mux) (srcs : List String) (d : Dict Mux (List String)), Ok d →
      (∀ μ ∈ ms, μ ∈ Module.muxes m ∧ g.ctrlsSrcs σ (findNames μ.cond) = some srcs) →
      Ok (ms.foldl (fun d μ => d.set μ srcs) d) ∧
      ∀ μ, (μ ∈ ms ∨ (d.get? μ).isSome) →
        ((ms.foldl (fun d μ => d.set μ srcs) d).get? μ).isSome := by
    intro ms srcs
    induction ms with
    | nil =>
        intro d hd _
        refine ⟨hd, fun μ h => ?_⟩
        simpa using h
    | cons μ ms ih =>
        intro d hd hms
        have hset : Ok (d.set μ srcs) := by
          intro x hx
          rcases Dict.mem_setEntries hx with rfl | hx
          · exact hms μ List.mem_cons_self
          · exact hd x hx
        obtain ⟨h₁, h₂⟩ := ih _ hset fun μ' h' => hms μ' (List.mem_cons_of_mem _ h')
        refine ⟨h₁, fun μ' h' => h₂ μ' ?_⟩
        rw [Dict.get?_set]
        by_cases he : μ' = μ
        · exact .inr (by simp [he])
        · simpa [he] using h'
  have outer : ∀ (cs : List (List String)) (d : Dict Mux (List String)), Ok d →
      (∀ c ∈ cs, ∃ μ ∈ Module.muxes m, findNames μ.cond = c) →
      ∃ d', cs.foldlM (fun d ctrls => (g.ctrlsSrcs σ ctrls).map fun srcs =>
          (group ctrls).foldl (fun d μ => d.set μ srcs) d) d = some d' ∧ Ok d' ∧
        ∀ μ, (μ ∈ Module.muxes m ∧ findNames μ.cond ∈ cs) ∨ (d.get? μ).isSome →
          (d'.get? μ).isSome := by
    intro cs
    induction cs with
    | nil =>
        intro d hd _
        exact ⟨d, rfl, hd, fun μ h => h.elim (fun h => absurd h.2 List.not_mem_nil) id⟩
    | cons c cs ih =>
        intro d hd hcs
        obtain ⟨μ₀, hμ₀, rfl⟩ := hcs c List.mem_cons_self
        obtain ⟨srcs, hsrcs, _⟩ := mem_ctrlsSrcs hm σ (cond_declared hm hμ₀)
        have hgroup : ∀ μ ∈ group (findNames μ₀.cond), μ ∈ Module.muxes m ∧
            g.ctrlsSrcs σ (findNames μ.cond) = some srcs := by
          intro μ hμ
          obtain ⟨hμ, ht⟩ := List.mem_filter.mp hμ
          have heq : findNames μ.cond = findNames μ₀.cond :=
            listBufferToString_inj (fun n hn => hm.commaFree n (cond_declared hm hμ n hn))
              (fun n hn => hm.commaFree n (cond_declared hm hμ₀ n hn)) (by simpa using ht)
          rw [heq]
          exact ⟨hμ, hsrcs⟩
        obtain ⟨h₁, h₂⟩ := inner _ srcs d hd hgroup
        obtain ⟨d', hd', hok, hall⟩ := ih _ h₁ fun c hc => hcs c (List.mem_cons_of_mem _ hc)
        refine ⟨d', ?_, hok, fun μ hμ => hall μ ?_⟩
        · rw [List.foldlM_cons, hsrcs]
          exact hd'
        · rcases hμ with ⟨hμ, hc⟩ | hμ
          · rcases List.mem_cons.mp hc with hc | hc
            · refine .inr (h₂ μ (.inl (List.mem_filter.mpr ⟨hμ, ?_⟩)))
              simp [hc]
            · exact .inl ⟨hμ, hc⟩
          · exact .inr (h₂ μ (.inr hμ))
  obtain ⟨d, hd, hok, hall⟩ := outer (σ.toSeq (g.muxes.map fun μ => findNames μ.cond).dedup) .empty
    (fun x hx => absurd hx List.not_mem_nil) (by
      intro c hc
      rw [SetOrder.mem_toSeq, List.mem_dedup, List.mem_map] at hc
      exact hc)
  refine ⟨d, hd, hok, fun μ hμ => ?_⟩
  have hs := hall μ (.inl ⟨hμ, by
    rw [SetOrder.mem_toSeq, List.mem_dedup]
    exact List.mem_map_of_mem (f := fun μ : Mux => findNames μ.cond) hμ⟩)
  obtain ⟨srcs, hs⟩ := Option.isSome_iff_exists.mp hs
  exact ⟨srcs, Dict.mem_of_lookup hs⟩

/-- The sources are the names of ports, registers, memories and instances. -/
theorem mem_source {x : String} :
    x ∈ (GraphLedger.parseModule (.module m)).source x ↔ IsSource m x := by
  have hkind : ∀ v ∈ nodesOf m, v.passes = false ↔ IsSource m v.name := by
    intro v hv
    constructor
    · intro hp
      rcases List.mem_append.mp hv with hv | hv
      · obtain ⟨q, hq, rfl⟩ := List.mem_map.mp hv
        exact .inl ⟨q, hq, rfl⟩
      · obtain ⟨s, hs, e⟩ := List.mem_filterMap.mp hv
        cases s <;> simp [Node.ofStmt] at e <;> subst e
        · cases hp
        · exact .inr (.inl ⟨_, hs, rfl⟩)
        · exact .inr (.inr (.inr ⟨_, hs, rfl⟩))
        · exact .inr (.inr (.inl ⟨_, hs, rfl⟩))
        · cases hp
    · -- a name has one vertex, and that of a source does not pass
      have hone : ∀ w ∈ nodesOf m, w.name = v.name → w.passes = false → v.passes = false :=
        fun w hw hname hp => node_unique hm hw hv hname ▸ hp
      intro hx
      rcases hx with ⟨q, hq, h⟩ | ⟨r, hr, h⟩ | ⟨d, hd, h⟩ | ⟨i, hi, h⟩
      · exact hone (.port q) (List.mem_append_left _ (List.mem_map_of_mem hq)) h rfl
      · exact hone (.defRegister r) (mem_nodesOf_stmt hr rfl) h rfl
      · exact hone (.defMemory d.name) (mem_nodesOf_stmt hd rfl) h rfl
      · exact hone (.wDefInstance i) (mem_nodesOf_stmt hi rfl) h rfl
  have hdecl : IsSource m x → ∃ v ∈ nodesOf m, v.name = x := by
    intro hx
    rcases hx with ⟨q, hq, h⟩ | ⟨r, hr, h⟩ | ⟨d, hd, h⟩ | ⟨i, hi, h⟩
    · exact ⟨.port q, List.mem_append_left _ (List.mem_map_of_mem hq), h⟩
    · exact ⟨.defRegister r, mem_nodesOf_stmt hr rfl, h⟩
    · exact ⟨.defMemory d.name, mem_nodesOf_stmt hd rfl, h⟩
    · exact ⟨.wDefInstance i, mem_nodesOf_stmt hi rfl, h⟩
  unfold GraphLedger.source
  constructor
  · intro h
    split at h
    · rename_i v hv
      obtain ⟨hvm, rfl⟩ := parseModule_get?_inv hm.nodup hv
      split at h
      · cases h
      · rename_i hp
        exact (hkind v hvm).mp (Bool.eq_false_iff.mpr hp)
    · cases h
  · intro h
    obtain ⟨v, hv, rfl⟩ := hdecl h
    rw [parseModule_get? hm.nodup hv]
    simp [(hkind v hv).mpr h]

/-- A search answers, and has visited no name twice. -/
theorem findSrcs_visited {sink : String} (hs : sink ∈ m.declared) :
    ∃ srcs visited, dfs ((GraphLedger.parseModule (.module m)).step σ)
        (GraphLedger.parseModule (.module m)).source
        (GraphLedger.parseModule (.module m)).graphMap.contains
        ((GraphLedger.parseModule (.module m)).graphMap.entries.length + 1) sink [] =
          some (srcs, visited) ∧ visited.Nodup := by
  obtain ⟨l, hl, -⟩ := mem_findSrcs hm σ hs
  obtain ⟨⟨srcs, visited⟩, hdfs, -⟩ := Option.map_eq_some_iff.mp hl
  exact ⟨srcs, visited, hdfs, dfs_nodup hdfs List.nodup_nil⟩

end Search

/-- **The mux-source analysis computes reachability.** For every LowForm module with distinct names that all
    resolve, whatever the iteration orders: the analysis answers; its keys are the muxes of the module; the
    sources of a mux are the ports, registers, memories and instances that are among the names of its select,
    or from which a path leads to one of them, with nodes and wires only after the first name; they are those
    that a search for this mux alone finds. Every search ends and visits no name twice. -/
theorem muxSrcs_iff_reachable {m : Module} (hm : Referenced m) (σ : SetOrder) :
    (∃ d, (GraphLedger.parseModule (.module m)).muxSrcs σ = some d ∧
      (∀ μ, (∃ srcs, d.get? μ = some srcs) ↔ μ ∈ Module.muxes m) ∧
      ∀ μ srcs, d.get? μ = some srcs →
        (GraphLedger.parseModule (.module m)).ctrlsSrcs σ (findNames μ.cond) = some srcs ∧
        ∀ x, x ∈ srcs ↔ IsSource m x ∧
          (x ∈ findNames μ.cond ∨ ∃ n ∈ findNames μ.cond, Relation.TransGen (Through m) x n)) ∧
    ∀ sink ∈ m.declared, ∃ srcs visited, dfs ((GraphLedger.parseModule (.module m)).step σ)
        (GraphLedger.parseModule (.module m)).source
        (GraphLedger.parseModule (.module m)).graphMap.contains
        ((GraphLedger.parseModule (.module m)).graphMap.entries.length + 1) sink [] =
          some (srcs, visited) ∧ visited.Nodup := by
  obtain ⟨d, hd, hok, hall⟩ := muxSrcs_spec hm σ
  refine ⟨⟨d, hd, fun μ => ⟨?_, fun hμ => ?_⟩, fun μ srcs hget => ?_⟩, fun sink hs => findSrcs_visited hm σ hs⟩
  · intro hex
    obtain ⟨srcs, hget⟩ := hex
    exact (hok _ (Dict.mem_of_lookup hget)).1
  · obtain ⟨srcs, he⟩ := hall μ hμ
    exact Dict.lookup_isSome_of_mem he
  · obtain ⟨hμ, hc⟩ := hok _ (Dict.mem_of_lookup hget)
    obtain ⟨l, hl, hx⟩ := mem_ctrlsSrcs hm σ (cond_declared hm hμ)
    have hsrcs : l = srcs := Option.some.inj (hl.symm.trans hc)
    subst hsrcs
    refine ⟨hl, fun x => ?_⟩
    rw [hx, mem_source hm, and_comm]
    refine and_congr_right fun _ => ?_
    simp only [Relation.reflTransGen_iff_eq_or_transGen]
    constructor
    · intro hex
      obtain ⟨n, hn, rfl | hp⟩ := hex
      · exact .inl hn
      · exact .inr ⟨n, hn, hp⟩
    · intro hex
      rcases hex with hn | ⟨n, hn, hp⟩
      · exact ⟨x, hn, .inl rfl⟩
      · exact ⟨n, hn, .inr hp⟩

/-- Two wires that feed each other, one of them also from a register; the other one is a select. -/
def cycleDemo : Module where
  name := "CycleDemo"
  ports := [⟨"clock", .input, .clock⟩, ⟨"out", .output, .uint 1⟩]
  body :=
    [.defRegister ⟨.noInfo, "r", .uint 1, .ref "clock" .clock, .uintLit 0 1, bit "r"⟩,
     .defWire "v" (.uint 1), .defWire "w" (.uint 1), .connect (bit "v") (.doPrim2 .or (bit "w") (bit "r") [] (.uint 1)),
     .connect (bit "w") (bit "v"), .connect (bit "out") (.mux (bit "w") (.uintLit 1 1) (.uintLit 0 1) (.uint 1))]
where
  bit (n : String) : Expr := .ref n (.uint 1)

theorem cycleDemo_referenced : Referenced cycleDemo where
  nodup := by decide
  resolved := by decide
  commaFree := by decide

/-- The register is a source of the mux, around the cycle. -/
theorem muxSrcs_cycleDemo :
    ∃ d srcs, (GraphLedger.parseModule (.module cycleDemo)).muxSrcs .insertion = some d ∧
      d.get? ⟨cycleDemo.bit "w", .uintLit 1 1, .uintLit 0 1, .uint 1⟩ = some srcs ∧ "r" ∈ srcs := by
  obtain ⟨⟨d, hd, hkeys, hsrcs⟩, -⟩ := muxSrcs_iff_reachable cycleDemo_referenced .insertion
  obtain ⟨srcs, hget⟩ := (hkeys ⟨cycleDemo.bit "w", .uintLit 1 1, .uintLit 0 1, .uint 1⟩).mpr (by decide)
  have hv : Through cycleDemo "r" "v" := by
    refine ⟨⟨.connect (cycleDemo.bit "v") (.doPrim2 .or (cycleDemo.bit "w") (cycleDemo.bit "r") [] (.uint 1)),
      ?_, by decide⟩, .inr ⟨.uint 1, ?_⟩⟩ <;>
      simp [Module.leaves, Stmt.leavesList, Stmt.leaves, cycleDemo]
  have hw : Through cycleDemo "v" "w" := by
    refine ⟨⟨.connect (cycleDemo.bit "w") (cycleDemo.bit "v"), ?_, by decide⟩, .inr ⟨.uint 1, ?_⟩⟩ <;>
      simp [Module.leaves, Stmt.leavesList, Stmt.leaves, cycleDemo]
  have hr : IsSource cycleDemo "r" := by
    refine .inr (.inl ⟨⟨.noInfo, "r", .uint 1, .ref "clock" .clock, .uintLit 0 1, cycleDemo.bit "r"⟩, ?_, rfl⟩)
    simp [Module.leaves, Stmt.leavesList, Stmt.leaves, cycleDemo]
  exact ⟨d, srcs, hd, hget, ((hsrcs _ srcs hget).2 "r").mpr
    ⟨hr, .inr ⟨"w", by decide, .tail (.single hv) hw⟩⟩⟩

end Difuzz.Coverage
