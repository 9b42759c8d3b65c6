/-
  File:      DifuzzRtl/Mutator/Seeds.lean
  Subject:   The data table: the list of seeds in the order of their last use, and what becomes of
             the data of a corpus entry.

  * `DataStep` -- what a call of `get` or `read_siminput` does to the table: words are stored under
    a seed that is taken, or a seed is used again.
  * `SeedsOk` -- the list of seeds is a permutation of `0 .. len - 1`, no longer than the table, and
    its elements are the keys; `seeds_wellFormed` for every state of every run.
  * `Near` -- a seed has at most so many seeds after it in the list. A seed is recycled from the
    front only, so an input keeps its data while fewer than `maxData` calls have used the table
    since it was returned (`corpus_data_kept`).
-/
import DifuzzRtl.Mutator.Mutate

namespace Difuzz.Mutator

/-! ## 1. What a call does to the table -/

/-- The table after a call that returned `data` under `seed`. -/
inductive DataStep (m : RvMutator) (seed : Nat) (data : List Int) : RvMutator → Prop where
  | fresh {seeds : List Nat} (h : m.takeSeed = .ok (seed, seeds)) :
      DataStep m seed data
        { m with randomData := m.randomData.set seed data, dataSeeds := seeds ++ [seed] }
  | again {m' : RvMutator} (hd : m.randomData.get? seed = some data)
      (he : ∃ e ∈ m.corpus, e.dataSeed = seed) (h : m.updateDataSeeds seed = .ok m') :
      DataStep m seed data m'

theorem addData_spec {m m' : RvMutator} {newData data : List Int} {seed : Nat} {w w' : World}
    (h : m.addData newData w = .ok ((seed, m'), w')) (hd : m'.getData seed = .ok data) :
    ∃ seeds, m.takeSeed = .ok (seed, seeds) ∧
      m' = { m with randomData := m.randomData.set seed data, dataSeeds := seeds ++ [seed] } := by
  unfold RvMutator.addData at h
  obtain ⟨⟨seed', seeds⟩, w₁, hs, h⟩ := StateT.bind_ok.mp h
  obtain ⟨words, w₂, -, h⟩ := StateT.bind_ok.mp h
  have hp := StateT.pure_ok.mp h
  simp only [Prod.mk.injEq] at hp
  obtain ⟨⟨rfl, rfl⟩, -⟩ := hp
  have hwords : words = data := by
    simpa [RvMutator.getData] using hd
  subst hwords
  exact ⟨seeds, (lift_ok.mp hs).1, rfl⟩

theorem updateDataSeeds_frame {m m' : RvMutator} {seed : Nat} (h : m.updateDataSeeds seed = .ok m') :
    m.dataSeeds.count seed = 1 ∧ m' = { m with dataSeeds := m.dataSeeds.erase seed ++ [seed] } := by
  unfold RvMutator.updateDataSeeds at h
  split at h
  · rename_i hc
    cases h
    exact ⟨hc, rfl⟩
  · cases h

theorem getData_ok {m : RvMutator} {seed : Nat} {data : List Int} :
    m.getData seed = .ok data ↔ m.randomData.get? seed = some data := by
  unfold RvMutator.getData
  cases m.randomData.get? seed with
  | none => exact ⟨fun h => (nomatch h), fun h => (nomatch h)⟩
  | some d => simp

/-- The seed of a mutated draft is one of the corpus. -/
theorem ensures_seeds (m : RvMutator) :
    Ensures m.seeds fun d => ∃ e ∈ m.corpus, d.dataSeed = some e.dataSeed := by
  refine (ensures_choice m.corpus).bind fun e he => ?_
  split
  · refine Ensures.bind' fun e₂ => Ensures.bind' fun i => Ensures.pure ⟨e, he, rfl⟩
  · exact Ensures.pure ⟨e, he, rfl⟩

theorem ensures_mutate (selector : List Nat) (m : RvMutator) :
    Ensures (m.mutate selector) fun d => ∃ e ∈ m.corpus, d.dataSeed = some e.dataSeed := by
  refine (ensures_seeds m).bind fun d hd => ?_
  refine Ensures.bind' fun _ => Ensures.bind' fun _ => Ensures.bind' fun _ => ?_
  exact Ensures.pure hd

/-- A generated draft has no seed; a mutated one has the seed of an entry. -/
theorem ensures_draft (selector : List Nat) (m : RvMutator) (g : Generator) (t : Template) :
    Ensures (m.draft selector g t) fun r =>
      (m.phase = .generation ∧ r.1.dataSeed = none) ∨
        (m.phase ≠ .generation ∧ ∃ e ∈ m.corpus, r.1.dataSeed = some e.dataSeed) := by
  unfold RvMutator.draft
  split
  · rename_i hp
    refine Ensures.bind' fun x => Ensures.bind' fun y => Ensures.bind' fun z => ?_
    exact Ensures.pure (Or.inl ⟨hp, rfl⟩)
  · rename_i hp
    refine (ensures_mutate selector m).bind fun d hd => Ensures.pure (Or.inr ⟨?_, hd⟩)
    exact fun e => hp e

/-- **What `get` does to the table**: a generated input takes a seed, a mutated one uses the seed of
    an entry again. -/
theorem get_dataStep {selector : List Nat} {m m' : RvMutator} {intr : Bool} {si : SimInput}
    {data : List Int} {k : GeneratorKind} {w w' : World}
    (h : m.get selector intr w = .ok (((si, data, k), m'), w')) :
    DataStep m si.dataSeed data m' ∧ (m.phase ≠ .generation → m.updateDataSeeds si.dataSeed = .ok m') := by
  unfold RvMutator.get at h
  obtain ⟨kind, w₁, -, h⟩ := StateT.bind_ok.mp h
  obtain ⟨t, w₂, -, h⟩ := StateT.bind_ok.mp h
  obtain ⟨⟨d, g⟩, w₃, hdraft, h⟩ := StateT.bind_ok.mp h
  obtain ⟨⟨pw, g₁⟩, w₄, -, h⟩ := StateT.bind_ok.mp h
  obtain ⟨⟨mw, g₂⟩, w₅, -, h⟩ := StateT.bind_ok.mp h
  obtain ⟨⟨sw, g₃⟩, w₆, -, h⟩ := StateT.bind_ok.mp h
  obtain ⟨ints, w₇, -, h⟩ := StateT.bind_ok.mp h
  obtain ⟨⟨seed, m₁⟩, w₈, hseed, h⟩ := StateT.bind_ok.mp h
  obtain ⟨dat, w₉, hdata, h⟩ := StateT.bind_ok.mp h
  have hp := StateT.pure_ok.mp h
  simp only [Prod.mk.injEq] at hp
  obtain ⟨⟨⟨rfl, rfl, -⟩, rfl⟩, -⟩ := hp
  have hget := (lift_ok.mp hdata).1
  rcases ensures_draft selector m _ t w₂ _ _ hdraft with ⟨hph, hn⟩ | ⟨hph, e, he, hs⟩
  · rw [hn] at hseed
    obtain ⟨seeds, htake, rfl⟩ := addData_spec hseed hget
    exact ⟨DataStep.fresh htake, fun hne => absurd hph hne⟩
  · rw [hs] at hseed
    obtain ⟨m₂, w₁₀, hup, hseed⟩ := StateT.bind_ok.mp hseed
    have hp := StateT.pure_ok.mp hseed
    simp only [Prod.mk.injEq] at hp
    obtain ⟨⟨rfl, rfl⟩, -⟩ := hp
    have hup' := (lift_ok.mp hup).1
    refine ⟨DataStep.again ?_ ⟨e, he, rfl⟩ hup', fun _ => hup'⟩
    obtain ⟨-, rfl⟩ := updateDataSeeds_frame hup'
    exact getData_ok.mp hget

theorem readSiminput_dataStep {m m' : RvMutator} {file : Text} {si : SimInput} {data : List Int}
    {b : Bool} {w w' : World} (h : m.readSiminput file w = .ok (((si, data, b), m'), w')) :
    DataStep m si.dataSeed data m' := by
  unfold RvMutator.readSiminput at h
  rcases hl : Text.readlines file with _ | ⟨line, _ | ⟨blank, lines⟩⟩
  · rw [hl] at h
    cases h
  · rw [hl] at h
    cases h
  · rw [hl] at h
    obtain ⟨t, w₁, -, h⟩ := StateT.bind_ok.mp h
    obtain ⟨⟨st, dat⟩, w₂, -, h⟩ := StateT.bind_ok.mp h
    obtain ⟨pw, w₃, -, h⟩ := StateT.bind_ok.mp h
    obtain ⟨mw, w₄, -, h⟩ := StateT.bind_ok.mp h
    obtain ⟨sw, w₅, -, h⟩ := StateT.bind_ok.mp h
    obtain ⟨⟨seed, m₁⟩, w₆, hseed, h⟩ := StateT.bind_ok.mp h
    obtain ⟨dat', w₇, hdata, h⟩ := StateT.bind_ok.mp h
    have hp := StateT.pure_ok.mp h
    simp only [Prod.mk.injEq] at hp
    obtain ⟨⟨⟨rfl, rfl, -⟩, rfl⟩, -⟩ := hp
    obtain ⟨seeds, htake, rfl⟩ := addData_spec hseed (lift_ok.mp hdata).1
    exact DataStep.fresh htake

/-- **What a call does**, for the table, the corpus and what was returned. -/
theorem call_cases {selector : List Nat} {s s' : Fuzz} {c : Call} (h : s.call selector c = some s') :
    (∃ si data m, s' = { s with
        mutator := s'.mutator
        world := s'.world
        returned := s.returned ++ [(si, data)] } ∧
      DataStep m si.dataSeed data s'.mutator ∧
      ((∃ phase intr, c = .get phase intr ∧ m = { s.mutator with phase := phase } ∧
          (phase ≠ .generation → m.updateDataSeeds si.dataSeed = .ok s'.mutator)) ∨
        (∃ file, c = .readSiminput file ∧ m = s.mutator))) ∨
      (∃ i e, c = .addCorpus i ∧ e ∈ s.returned ∧
        s' = { s with mutator := s.mutator.addCorpus e.1, kept := s.keep e }) := by
  cases c with
  | get phase intr =>
      unfold Fuzz.call at h
      dsimp only at h
      split at h
      · rename_i si data k m w hg
        cases h
        obtain ⟨hstep, hup⟩ := get_dataStep hg
        exact Or.inl ⟨si, data, _, rfl, hstep, Or.inl ⟨phase, intr, rfl, rfl, hup⟩⟩
      · cases h
  | readSiminput file =>
      unfold Fuzz.call at h
      dsimp only at h
      split at h
      · rename_i si data k m w hg
        cases h
        exact Or.inl ⟨si, data, _, rfl, readSiminput_dataStep hg, Or.inr ⟨file, rfl, rfl⟩⟩
      · cases h
  | addCorpus i =>
      unfold Fuzz.call at h
      dsimp only at h
      split at h
      · rename_i e he
        cases h
        exact Or.inr ⟨i, e, rfl, List.mem_of_getElem? he, rfl⟩
      · cases h

/-! ## 2. The list of seeds -/

structure SeedsOk (m : RvMutator) : Prop where
  perm : m.dataSeeds.Perm (List.range m.dataSeeds.length)
  le : m.dataSeeds.length ≤ m.maxData
  keys : ∀ k, k ∈ m.randomData.keys ↔ k ∈ m.dataSeeds

theorem SeedsOk.nodup {m : RvMutator} (h : SeedsOk m) : m.dataSeeds.Nodup :=
  h.perm.nodup_iff.mpr List.nodup_range

/-- The oldest seed, or the next number. -/
theorem takeSeed_cases {m : RvMutator} {seed : Nat} {seeds : List Nat}
    (h : m.takeSeed = .ok (seed, seeds)) :
    (m.dataSeeds.length = m.maxData ∧ m.dataSeeds = seed :: seeds) ∨
      (m.dataSeeds.length ≠ m.maxData ∧ seed = m.dataSeeds.length ∧ seeds = m.dataSeeds) := by
  unfold RvMutator.takeSeed at h
  split at h
  · rename_i hl
    split at h
    · cases h
    · rename_i hs
      cases h
      exact Or.inl ⟨hl, hs⟩
  · rename_i hl
    cases h
    exact Or.inr ⟨hl, rfl, rfl⟩

theorem mem_keys_set (d : Dict Nat (List Int)) (k : Nat) (x : List Int) (k' : Nat) :
    k' ∈ (d.set k x).keys ↔ k' = k ∨ k' ∈ d.keys := by
  rw [← Dict.get?_isSome_iff, ← Dict.get?_isSome_iff, Dict.get?_set]
  by_cases hk : k' = k
  · simp [hk]
  · simp [hk]

/-- **A call keeps the list of seeds in order**: no seed is lost, and the one it used is there. -/
theorem DataStep.seedsOk {m m' : RvMutator} {seed : Nat} {data : List Int}
    (h : DataStep m seed data m') (hm : SeedsOk m) :
    SeedsOk m' ∧ (∀ x ∈ m.dataSeeds, x ∈ m'.dataSeeds) ∧ seed ∈ m'.dataSeeds := by
  cases h with
  | @fresh seeds htake =>
      rcases takeSeed_cases htake with ⟨hfull, hs⟩ | ⟨hfree, rfl, rfl⟩
      · have hperm : (seeds ++ [seed]).Perm m.dataSeeds := by
          rw [hs]
          exact List.perm_append_singleton _ _
        refine ⟨⟨?_, ?_, fun k => ?_⟩, fun x hx => hperm.mem_iff.mpr hx, by simp⟩
        · show (seeds ++ [seed]).Perm (List.range (seeds ++ [seed]).length)
          rw [hperm.length_eq]
          exact hperm.trans hm.perm
        · show (seeds ++ [seed]).length ≤ m.maxData
          rw [hperm.length_eq]
          exact hm.le
        · show k ∈ (m.randomData.set seed data).keys ↔ k ∈ seeds ++ [seed]
          rw [mem_keys_set, hm.keys, hperm.mem_iff, hs, List.mem_cons]
          tauto
      · refine ⟨⟨?_, ?_, fun k => ?_⟩, fun x hx => List.mem_append_left _ hx, by simp⟩
        · show (m.dataSeeds ++ [_]).Perm (List.range (m.dataSeeds ++ [_]).length)
          rw [List.length_append, List.length_singleton, List.range_succ]
          exact hm.perm.append_right _
        · show (m.dataSeeds ++ [_]).length ≤ m.maxData
          have := hm.le
          rw [List.length_append, List.length_singleton]
          omega
        · show k ∈ (m.randomData.set _ data).keys ↔ k ∈ m.dataSeeds ++ [_]
          rw [mem_keys_set, hm.keys, List.mem_append, List.mem_singleton]
          tauto
  | again hd he hup =>
      obtain ⟨hc, rfl⟩ := updateDataSeeds_frame hup
      have hmem : seed ∈ m.dataSeeds := List.count_pos_iff.mp (by omega)
      have hperm : (m.dataSeeds.erase seed ++ [seed]).Perm m.dataSeeds :=
        (List.perm_append_singleton _ _).trans (List.perm_cons_erase hmem).symm
      refine ⟨⟨?_, ?_, fun k => ?_⟩, fun x hx => hperm.mem_iff.mpr hx, by simp⟩
      · show (m.dataSeeds.erase seed ++ [seed]).Perm _
        refine (hperm.trans hm.perm).trans ?_
        show (List.range m.dataSeeds.length).Perm
          (List.range (m.dataSeeds.erase seed ++ [seed]).length)
        rw [hperm.length_eq]
      · show (m.dataSeeds.erase seed ++ [seed]).length ≤ m.maxData
        rw [hperm.length_eq]
        exact hm.le
      · show k ∈ m.randomData.keys ↔ k ∈ m.dataSeeds.erase seed ++ [seed]
        rw [hm.keys, hperm.mem_iff]

theorem DataStep.frame {m m' : RvMutator} {seed : Nat} {data : List Int}
    (h : DataStep m seed data m') : m'.corpus = m.corpus ∧ m'.maxData = m.maxData := by
  cases h with
  | fresh htake => exact ⟨rfl, rfl⟩
  | again hd he hup =>
      obtain ⟨-, rfl⟩ := updateDataSeeds_frame hup
      exact ⟨rfl, rfl⟩

/-- The phase does not matter to the table. -/
theorem SeedsOk.phase {m : RvMutator} (h : SeedsOk m) (phase : Phase) :
    SeedsOk { m with phase := phase } :=
  ⟨h.perm, h.le, h.keys⟩

/-- The invariant of a run. -/
structure TableOk (maxData : Nat) (s : Fuzz) : Prop where
  seeds : SeedsOk s.mutator
  size : s.mutator.maxData = maxData
  returned : ∀ e ∈ s.returned, e.1.dataSeed ∈ s.mutator.dataSeeds
  corpus : ∀ e ∈ s.mutator.corpus, e.dataSeed ∈ s.mutator.dataSeeds

theorem mem_addCorpus {m : RvMutator} {si e : SimInput} (h : e ∈ (m.addCorpus si).corpus) :
    e ∈ m.corpus ∨ e = si := by
  have h' : e ∈ m.corpus ++ [si] := by
    unfold RvMutator.addCorpus at h
    dsimp only at h
    split at h
    · exact List.mem_of_mem_tail h
    · exact h
  simpa using h'

theorem TableOk.call {selector : List Nat} {maxData : Nat} {s s' : Fuzz} {c : Call}
    (hs : TableOk maxData s) (h : s.call selector c = some s') : TableOk maxData s' := by
  rcases call_cases h with ⟨si, data, m, he, hstep, hm⟩ | ⟨i, e, -, he, rfl⟩
  · have hmok : SeedsOk m ∧ m.dataSeeds = s.mutator.dataSeeds ∧ m.corpus = s.mutator.corpus ∧
        m.maxData = s.mutator.maxData := by
      rcases hm with ⟨phase, intr, -, rfl, -⟩ | ⟨file, -, rfl⟩
      · exact ⟨hs.seeds.phase phase, rfl, rfl, rfl⟩
      · exact ⟨hs.seeds, rfl, rfl, rfl⟩
    obtain ⟨hmok, hds, hco, hmax⟩ := hmok
    obtain ⟨hok, hmono, hmem⟩ := hstep.seedsOk hmok
    obtain ⟨hcor, hsize⟩ := hstep.frame
    rw [hds] at hmono
    refine ⟨hok, hsize.trans (hmax.trans hs.size), ?_, ?_⟩
    · rw [he]
      intro x hx
      rcases List.mem_append.mp hx with hx | hx
      · exact hmono _ (hs.returned x hx)
      · rw [List.mem_singleton.mp hx]
        exact hmem
    · rw [hcor, hco]
      exact fun x hx => hmono _ (hs.corpus x hx)
  · refine ⟨⟨hs.seeds.perm, hs.seeds.le, hs.seeds.keys⟩, hs.size, hs.returned, fun x hx => ?_⟩
    rcases mem_addCorpus hx with hx | rfl
    · exact hs.corpus x hx
    · exact hs.returned e he

theorem run_tableOk {selector : List Nat} {maxData corpusSize : Nat} {tr : List (Fuzz × Call × Fuzz)}
    {s : Fuzz} (h : (machine selector maxData corpusSize).Trace tr s) : TableOk maxData s := by
  refine h.inv (P := fun _ _ => True) ?_ (fun s c s' hs _ hc => hs.call hc) (fun _ _ => trivial)
  intro s hex
  obtain ⟨world, rfl⟩ := hex
  refine ⟨⟨List.Perm.refl _, Nat.zero_le _, fun k => ?_⟩, rfl, ?_, ?_⟩
  · show k ∈ (Dict.empty : Dict Nat (List Int)).keys ↔ k ∈ []
    exact Iff.rfl
  · exact fun x hx => (nomatch hx)
  · exact fun x hx => (nomatch hx)

/-- **The list of seeds stays well formed** in every state of every run: it has no duplicates and is
    a permutation of `0 .. len - 1`, its elements are the keys of the table, and the seeds of the
    corpus are in it. A draft of `get` that uses a seed again therefore passes the assertion of
    `update_data_seeds`. -/
theorem seeds_wellFormed {selector : List Nat} {maxData corpusSize : Nat}
    {tr : List (Fuzz × Call × Fuzz)} {s : Fuzz}
    (h : (machine selector maxData corpusSize).Trace tr s) :
    s.mutator.dataSeeds.Nodup ∧
      s.mutator.dataSeeds.Perm (List.range s.mutator.dataSeeds.length) ∧
      s.mutator.dataSeeds.length ≤ maxData ∧
      (∀ k, k ∈ s.mutator.randomData.keys ↔ k ∈ s.mutator.dataSeeds) ∧
      (∀ e ∈ s.mutator.corpus, e.dataSeed ∈ s.mutator.dataSeeds) ∧
      ∀ phase g t w r w', { s.mutator with phase := phase }.draft selector g t w = .ok (r, w') →
        ∀ seed, r.1.dataSeed = some seed →
          ∃ m', { s.mutator with phase := phase }.updateDataSeeds seed = .ok m' := by
  have hs := run_tableOk h
  refine ⟨hs.seeds.nodup, hs.seeds.perm, hs.size ▸ hs.seeds.le, hs.seeds.keys, hs.corpus, ?_⟩
  intro phase g t w r w' hd seed hseed
  have hin : seed ∈ s.mutator.dataSeeds := by
    rcases ensures_draft selector _ g t w r w' hd with ⟨-, hn⟩ | ⟨-, e, he, hs'⟩
    · rw [hn] at hseed
      cases hseed
    · rw [hs'] at hseed
      cases hseed
      exact hs.corpus e he
  refine ⟨_, if_pos ?_⟩
  exact List.count_eq_one_of_mem hs.seeds.nodup hin

/-- A program of one instruction, as a file with its data. -/
def tinyFile (data : String) : Text :=
  "m\n\n".toList ++ Text.ljust 50 "_l0:    nop".toList ++ "0000\ndata:\n".toList ++ data.toList ++
    ['\n']

def tinyStart (maxData corpusSize : Nat) : Fuzz :=
  ⟨RvMutator.new maxData corpusSize, ⟨[], none, none⟩, [], []⟩

theorem exec_tiny (maxData corpusSize : Nat) (cs : List Call) :
    (machine generatorSelector maxData corpusSize).Trace
      (exec (Fuzz.call generatorSelector) (tinyStart maxData corpusSize) cs).1
      (exec (Fuzz.call generatorSelector) (tinyStart maxData corpusSize) cs).2 := by
  have h₀ : (machine generatorSelector maxData corpusSize).Trace [] (tinyStart maxData corpusSize) :=
    Machine.Trace.start _ ⟨_, rfl⟩
  exact Machine.exec_trace (fun _ _ _ h => h) h₀ cs

/-- A seed is used again by a mutation of the entry that was read. -/
theorem seeds_wellFormed_again :
    let s := (exec (Fuzz.call generatorSelector) (tinyStart 1 1)
      [.readSiminput (tinyFile "1"), .addCorpus 0, .get .mutation false]).2
    s.returned.length = 2 ∧ s.mutator.corpus.length = 1 ∧ s.mutator.dataSeeds.Nodup ∧
      s.mutator.dataSeeds.length ≤ 1 :=
  ⟨by decide +kernel, by decide +kernel, (seeds_wellFormed (exec_tiny 1 1 _)).1,
    (seeds_wellFormed (exec_tiny 1 1 _)).2.2.1⟩

/-! ## 3. The data of an entry -/

/-- The calls that store new data. -/
def Call.takesSeed : Call → Bool
  | .get .generation _ => true
  | .readSiminput _ => true
  | _ => false

/-- The calls that use the table. -/
def Call.usesTable : Call → Bool
  | .addCorpus _ => false
  | _ => true

/-- The call stores new data under a seed that had data: the oldest one of a full table. -/
def Recycles (s : Fuzz) (c : Call) (seed : Nat) : Prop :=
  c.takesSeed = true ∧ s.mutator.dataSeeds.length = s.mutator.maxData ∧
    s.mutator.dataSeeds.head? = some seed

/-- At most `k` seeds were used later than this one. -/
def Near (seeds : List Nat) (seed k : Nat) : Prop := ∃ a b, seeds = a ++ seed :: b ∧ b.length ≤ k

theorem DataStep.data {m m' : RvMutator} {seed : Nat} {data : List Int}
    (h : DataStep m seed data m') : m'.randomData.get? seed = some data := by
  cases h with
  | fresh htake => simp
  | again hd he hup =>
      obtain ⟨-, rfl⟩ := updateDataSeeds_frame hup
      exact hd

theorem DataStep.near_self {m m' : RvMutator} {seed : Nat} {data : List Int}
    (h : DataStep m seed data m') : Near m'.dataSeeds seed 0 := by
  cases h with
  | fresh htake => exact ⟨_, [], rfl, Nat.le_refl 0⟩
  | again hd he hup =>
      obtain ⟨-, rfl⟩ := updateDataSeeds_frame hup
      exact ⟨_, [], rfl, Nat.le_refl 0⟩

/-- A seed that is not the oldest of a full table keeps its data. -/
theorem DataStep.keeps {m m' : RvMutator} {seed : Nat} {data : List Int}
    (h : DataStep m seed data m') {x : Nat} (hx : x ∈ m.dataSeeds) (hm : SeedsOk m)
    (hold : ¬ (m.dataSeeds.length = m.maxData ∧ m.dataSeeds.head? = some x) ∨
      m.updateDataSeeds seed = .ok m') :
    m'.randomData.get? x = m.randomData.get? x := by
  cases h with
  | @fresh seeds htake =>
      rcases hold with hold | hup
      · have hne : x ≠ seed := by
          rintro rfl
          rcases takeSeed_cases htake with ⟨hfull, hs⟩ | ⟨-, rfl, -⟩
          · exact hold ⟨hfull, by rw [hs]; rfl⟩
          · exact absurd (hm.perm.mem_iff.mp hx) (by simp)
        simp [hne]
      · obtain ⟨-, he⟩ := updateDataSeeds_frame hup
        have hr : m.randomData.set seed data = m.randomData := congrArg RvMutator.randomData he
        show (m.randomData.set seed data).get? x = _
        rw [hr]
  | again hd he hup =>
      obtain ⟨-, rfl⟩ := updateDataSeeds_frame hup
      rfl

/-- A call puts at most one seed behind another one. -/
theorem DataStep.near {m m' : RvMutator} {seed : Nat} {data : List Int}
    (h : DataStep m seed data m') {x k : Nat} (hx : Near m.dataSeeds x k) (hk : k + 1 < m.maxData) :
    Near m'.dataSeeds x (k + 1) := by
  obtain ⟨a, b, hab, hb⟩ := hx
  cases h with
  | @fresh seeds htake =>
      rcases takeSeed_cases htake with ⟨hfull, hs⟩ | ⟨-, rfl, rfl⟩
      · rw [hs] at hab hfull
        cases a with
        | nil =>
            -- the oldest of a full table has all the others behind it
            obtain ⟨rfl, rfl⟩ := List.cons.inj hab
            rw [List.length_cons] at hfull
            omega
        | cons y a =>
            obtain ⟨rfl, rfl⟩ := List.cons.inj hab
            refine ⟨a, b ++ [seed], by simp, ?_⟩
            rw [List.length_append, List.length_singleton]
            omega
      · refine ⟨a, b ++ [m.dataSeeds.length], by simp [hab], ?_⟩
        rw [List.length_append, List.length_singleton]
        omega
  | again hd he hup =>
      obtain ⟨hc, rfl⟩ := updateDataSeeds_frame hup
      by_cases hxs : x = seed
      · exact ⟨_, [], by rw [hxs], Nat.zero_le _⟩
      · show Near (m.dataSeeds.erase seed ++ [seed]) x (k + 1)
        rw [hab]
        by_cases ha : seed ∈ a
        · refine ⟨a.erase seed, b ++ [seed], ?_, ?_⟩
          · rw [List.erase_append_left _ ha]
            simp
          · rw [List.length_append, List.length_singleton]
            omega
        · refine ⟨a, b.erase seed ++ [seed], ?_, ?_⟩
          · rw [List.erase_append_right _ ha, List.erase_cons_tail (by simpa using hxs)]
            simp
          · have := List.length_erase_le (a := seed) (l := b)
            rw [List.length_append, List.length_singleton]
            omega

theorem Near.mem {seeds : List Nat} {x k : Nat} (h : Near seeds x k) : x ∈ seeds := by
  obtain ⟨a, b, rfl, -⟩ := h
  simp

/-- A seed with room behind it is not the oldest of a full table. -/
theorem Near.not_recycles {s : Fuzz} {c : Call} {x k : Nat} (h : Near s.mutator.dataSeeds x k)
    (hn : s.mutator.dataSeeds.Nodup) (hk : k + 1 < s.mutator.maxData) : ¬ Recycles s c x := by
  intro hx
  obtain ⟨-, hfull, hhead⟩ := hx
  obtain ⟨a, b, hab, hb⟩ := h
  rw [hab] at hfull hhead hn
  cases a with
  | nil =>
      rw [List.nil_append, List.length_cons] at hfull
      omega
  | cons y a =>
      have hy : y = x := by simpa using hhead
      rw [hy, List.cons_append, List.nodup_cons] at hn
      exact hn.1 (by simp)

theorem call_keeps {selector : List Nat} {maxData : Nat} {s s' : Fuzz} {c : Call}
    (hs : TableOk maxData s) (h : s.call selector c = some s') {x : Nat}
    (hx : x ∈ s.mutator.dataSeeds) (hr : ¬ Recycles s c x) :
    s'.mutator.randomData.get? x = s.mutator.randomData.get? x := by
  rcases call_cases h with ⟨si, data, m, -, hstep, hm⟩ | ⟨i, e, -, -, rfl⟩
  · rcases hm with ⟨phase, intr, rfl, rfl, hup⟩ | ⟨file, rfl, rfl⟩
    · refine hstep.keeps hx (hs.seeds.phase phase) ?_
      by_cases hp : phase = .generation
      · subst hp
        exact Or.inl fun hf => hr ⟨rfl, hf.1, hf.2⟩
      · exact Or.inr (hup hp)
    · exact hstep.keeps hx hs.seeds (Or.inl fun hf => hr ⟨rfl, hf.1, hf.2⟩)
  · rfl

theorem call_near {selector : List Nat} {maxData : Nat} {s s' : Fuzz} {c : Call}
    (hs : TableOk maxData s) (h : s.call selector c = some s') {x k : Nat}
    (hx : Near s.mutator.dataSeeds x k) (hk : k + 1 < maxData) :
    Near s'.mutator.dataSeeds x (if c.usesTable then k + 1 else k) := by
  rcases call_cases h with ⟨si, data, m, -, hstep, hm⟩ | ⟨i, e, rfl, -, rfl⟩
  · rcases hm with ⟨phase, intr, rfl, rfl, -⟩ | ⟨file, rfl, rfl⟩
    · exact hstep.near hx (by rw [← hs.size] at hk; exact hk)
    · exact hstep.near hx (by rw [← hs.size] at hk; exact hk)
  · exact hx

/-- The step returned this input with this data. -/
def Fuzz.Returns (x : Fuzz × Call × Fuzz) (e : SimInput × List Int) : Prop :=
  x.2.2.returned = x.1.returned ++ [e]

theorem call_returns {selector : List Nat} {s s' : Fuzz} {c : Call}
    (h : s.call selector c = some s') {e : SimInput × List Int} (he : Fuzz.Returns (s, c, s') e) :
    s'.mutator.randomData.get? e.1.dataSeed = some e.2 ∧ Near s'.mutator.dataSeeds e.1.dataSeed 0 := by
  rcases call_cases h with ⟨si, data, m, hs', hstep, -⟩ | ⟨i, e', -, -, rfl⟩
  · have hr : s'.returned = s.returned ++ [(si, data)] := by rw [hs']
    have hes : (si, data) = e := by
      have := hr.symm.trans he
      simpa using this
    subst hes
    exact ⟨hstep.data, hstep.near_self⟩
  · have : s.returned = s.returned ++ [e] := he
    exact absurd (congrArg List.length this) (by simp)

section Runs

variable {selector : List Nat} {maxData corpusSize : Nat} {tr : List (Fuzz × Call × Fuzz)} {s : Fuzz}

/-- How often the table was used. -/
def uses (tr : List (Fuzz × Call × Fuzz)) : Nat := (tr.filter fun x => x.2.1.usesTable).length

theorem uses_concat (l : List (Fuzz × Call × Fuzz)) (x : Fuzz × Call × Fuzz) :
    uses (l ++ [x]) = if x.2.1.usesTable then uses l + 1 else uses l := by
  unfold uses
  rw [List.filter_append, List.length_append]
  by_cases hc : x.2.1.usesTable = true
  · simp [hc]
  · simp [hc]

/-- An input keeps its data from where it was returned as long as its seed is not recycled. -/
theorem run_keeps (h : (machine selector maxData corpusSize).Trace tr s) {e : SimInput × List Int}
    {tr₁ tr₂ : List (Fuzz × Call × Fuzz)} {x : Fuzz × Call × Fuzz} (htr : tr = tr₁ ++ x :: tr₂)
    (hx : Fuzz.Returns x e) (hr : ∀ y ∈ tr₂, ¬ Recycles y.1 y.2.1 e.1.dataSeed) :
    s.mutator.randomData.get? e.1.dataSeed = some e.2 := by
  have key : s.mutator.randomData.get? e.1.dataSeed = some e.2 ∧
      e.1.dataSeed ∈ s.mutator.dataSeeds := by
    refine h.since (I := fun _ s => s.mutator.randomData.get? e.1.dataSeed = some e.2 ∧
      e.1.dataSeed ∈ s.mutator.dataSeeds) htr ?_ ?_
    · intro _ hs
      obtain ⟨hd, hn⟩ := call_returns hs hx
      exact ⟨hd, hn.mem⟩
    · intro tr' l s c s' ht hmem h' hs
      obtain ⟨hd, hin⟩ := h'
      have hok := run_tableOk ht
      refine ⟨(call_keeps hok hs hin (hr _ hmem)).trans hd, ?_⟩
      rcases call_cases hs with ⟨si, data, m, -, hstep, hm⟩ | ⟨i, e', -, -, rfl⟩
      · rcases hm with ⟨phase, intr, rfl, rfl, -⟩ | ⟨file, rfl, rfl⟩
        · exact (hstep.seedsOk (hok.seeds.phase phase)).2.1 _ hin
        · exact (hstep.seedsOk hok.seeds).2.1 _ hin
      · exact hin
  exact key.1

/-- While the table was used fewer than `maxData` times since, the seed is not recycled. -/
theorem run_not_recycles (h : (machine selector maxData corpusSize).Trace tr s)
    {e : SimInput × List Int} {tr₁ tr₂ : List (Fuzz × Call × Fuzz)} {x : Fuzz × Call × Fuzz}
    (htr : tr = tr₁ ++ x :: tr₂) (hx : Fuzz.Returns x e) (hu : uses tr₂ < maxData) :
    ∀ y ∈ tr₂, ¬ Recycles y.1 y.2.1 e.1.dataSeed := by
  have key : uses tr₂ < maxData → (∀ y ∈ tr₂, ¬ Recycles y.1 y.2.1 e.1.dataSeed) ∧
      Near s.mutator.dataSeeds e.1.dataSeed (uses tr₂) := by
    refine h.since (I := fun l s => uses l < maxData →
      (∀ y ∈ l, ¬ Recycles y.1 y.2.1 e.1.dataSeed) ∧
        Near s.mutator.dataSeeds e.1.dataSeed (uses l)) htr ?_ ?_
    · intro _ hs _
      exact ⟨fun y hy => (nomatch hy), (call_returns hs hx).2⟩
    · intro tr' l s c s' ht hmem ih hs hlt
      have hok := run_tableOk ht
      have huses := uses_concat l (s, c, s')
      have hle : uses l ≤ uses (l ++ [(s, c, s')]) := by
        rw [huses]
        split <;> omega
      obtain ⟨hnr, hnear⟩ := ih (by omega)
      by_cases hc : c.usesTable = true
      · rw [huses, if_pos hc] at hlt ⊢
        have hnext := call_near hok hs hnear hlt
        rw [if_pos hc] at hnext
        refine ⟨fun y hy => ?_, hnext⟩
        rcases List.mem_append.mp hy with hy | hy
        · exact hnr y hy
        · rw [List.mem_singleton.mp hy]
          exact hnear.not_recycles hok.seeds.nodup (by rw [hok.size]; exact hlt)
      · obtain ⟨i, rfl⟩ : ∃ i, c = .addCorpus i := by
          cases c with
          | addCorpus i => exact ⟨i, rfl⟩
          | get _ _ => exact absurd rfl hc
          | readSiminput _ => exact absurd rfl hc
        rw [huses]
        refine ⟨fun y hy => ?_, ?_⟩
        · rcases List.mem_append.mp hy with hy | hy
          · exact hnr y hy
          · rw [List.mem_singleton.mp hy]
            exact fun hrec => (nomatch hrec.1)
        · rcases call_cases hs with ⟨_, _, _, -, -, hm⟩ | ⟨_, _, -, -, rfl⟩
          · rcases hm with ⟨_, _, hc', -⟩ | ⟨_, hc', -⟩ <;> cases hc'
          · exact hnear
  exact (key hu).1

/-- The entries of the corpus are inputs that were returned. -/
structure KeptOk (s : Fuzz) : Prop where
  corpus : s.kept.map (·.1) = s.mutator.corpus
  returned : ∀ e ∈ s.kept, e ∈ s.returned

theorem KeptOk.call {s s' : Fuzz} {c : Call} (hs : KeptOk s) (h : s.call selector c = some s') :
    KeptOk s' := by
  rcases call_cases h with ⟨si, data, m, he, hstep, hm⟩ | ⟨i, e, -, he, rfl⟩
  · have hcor : s'.mutator.corpus = s.mutator.corpus := by
      rw [hstep.frame.1]
      rcases hm with ⟨phase, intr, -, rfl, -⟩ | ⟨file, -, rfl⟩ <;> rfl
    rw [he]
    refine ⟨hs.corpus.trans hcor.symm, fun x hx => ?_⟩
    exact List.mem_append_left _ (hs.returned x hx)
  · have hlen : s.kept.length = s.mutator.corpus.length := by
      rw [← hs.corpus, List.length_map]
    have hmap : (s.kept ++ [e]).map (·.1) = s.mutator.corpus ++ [e.1] := by
      rw [List.map_append, hs.corpus]
      rfl
    refine ⟨?_, fun x hx => ?_⟩
    · show (s.keep e).map (·.1) = (s.mutator.addCorpus e.1).corpus
      unfold Fuzz.keep RvMutator.addCorpus
      rw [List.length_append, List.length_append, hlen]
      dsimp only [List.length_singleton]
      split
      · rw [List.map_tail, hmap]
      · exact hmap
    · have hx' : x ∈ s.kept ++ [e] := by
        have : x ∈ s.keep e := hx
        unfold Fuzz.keep at this
        split at this
        · exact List.mem_of_mem_tail this
        · exact this
      rcases List.mem_append.mp hx' with hx' | hx'
      · exact hs.returned x hx'
      · rw [List.mem_singleton.mp hx']
        exact he

theorem run_keptOk (h : (machine selector maxData corpusSize).Trace tr s) : KeptOk s := by
  refine h.inv (P := fun _ _ => True) ?_ (fun s c s' hs _ hc => hs.call hc) (fun _ _ => trivial)
  intro s hex
  obtain ⟨world, rfl⟩ := hex
  exact ⟨rfl, fun x hx => (nomatch hx)⟩

theorem run_returned (h : (machine selector maxData corpusSize).Trace tr s) :
    ∀ e ∈ s.returned, ∃ tr₁ x tr₂, tr = tr₁ ++ x :: tr₂ ∧ Fuzz.Returns x e := by
  induction h with
  | start s h =>
      obtain ⟨world, rfl⟩ := h
      exact fun e he => (nomatch he)
  | @step tr s c s' htrace hs ih =>
      intro e he
      have hcase : e ∈ s.returned ∨ Fuzz.Returns (s, c, s') e := by
        rcases call_cases hs with ⟨si, data, m, hs', -, -⟩ | ⟨i, e', -, -, rfl⟩
        · have hr : s'.returned = s.returned ++ [(si, data)] := by rw [hs']
          rw [hr] at he
          rcases List.mem_append.mp he with he | he
          · exact Or.inl he
          · rw [List.mem_singleton.mp he]
            exact Or.inr hr
        · exact Or.inl he
      rcases hcase with he | he
      · obtain ⟨tr₁, x, tr₂, rfl, hx⟩ := ih e he
        exact ⟨tr₁, x, tr₂ ++ [(s, c, s')], by simp, hx⟩
      · exact ⟨tr, _, [], rfl, he⟩

/-- **Corpus entries keep their data until their seed is recycled.** Every entry was returned by a
    call of the run together with its data. From there on the table holds these data under the seed
    of the entry as long as no call stored new data under it; and no call does so while the table
    was used fewer than `maxData` times. -/
theorem corpus_data_kept (h : (machine selector maxData corpusSize).Trace tr s) :
    s.kept.map (·.1) = s.mutator.corpus ∧
      ∀ e ∈ s.kept, (∃ tr₁ x tr₂, tr = tr₁ ++ x :: tr₂ ∧ Fuzz.Returns x e) ∧
        ∀ tr₁ x tr₂, tr = tr₁ ++ x :: tr₂ → Fuzz.Returns x e →
          ((∀ y ∈ tr₂, ¬ Recycles y.1 y.2.1 e.1.dataSeed) →
            s.mutator.randomData.get? e.1.dataSeed = some e.2) ∧
          (uses tr₂ < maxData → ∀ y ∈ tr₂, ¬ Recycles y.1 y.2.1 e.1.dataSeed) := by
  have hk := run_keptOk h
  refine ⟨hk.corpus, fun e he => ⟨run_returned h e (hk.returned e he), ?_⟩⟩
  intro tr₁ x tr₂ htr hx
  exact ⟨run_keeps h htr hx, run_not_recycles h htr hx⟩

end Runs

/-- The second file is stored under the seed of the first. -/
def recycledRun : List (Fuzz × Call × Fuzz) × Fuzz :=
  exec (Fuzz.call generatorSelector) (tinyStart 1 1)
    [.readSiminput (tinyFile "1"), .addCorpus 0, .readSiminput (tinyFile "2")]

theorem not_corpus_data_recycled :
    ¬ ∀ (selector : List Nat) (maxData corpusSize : Nat) (tr : List (Fuzz × Call × Fuzz)) (s : Fuzz),
      1 ≤ maxData → 1 ≤ corpusSize → (machine selector maxData corpusSize).Trace tr s →
        ∀ e ∈ s.kept, s.mutator.randomData.get? e.1.dataSeed = some e.2 := by
  intro h
  have hall : ∀ e ∈ recycledRun.2.kept, recycledRun.2.mutator.randomData.get? e.1.dataSeed = some e.2 :=
    h generatorSelector 1 1 _ _ (by decide) (by decide) (exec_tiny 1 1 _)
  exact absurd hall (by decide +kernel)

/-- The table has a place for each of the two files. -/
def keptRun : List (Fuzz × Call × Fuzz) × Fuzz :=
  exec (Fuzz.call generatorSelector) (tinyStart 2 1)
    [.readSiminput (tinyFile "1"), .addCorpus 0, .readSiminput (tinyFile "2")]

/-- The data of the entry are still in the table after the second file. -/
theorem corpus_data_kept_used :
    keptRun.2.kept.map (·.1) = keptRun.2.mutator.corpus ∧ keptRun.2.kept.length = 1 ∧
    ∀ e ∈ keptRun.2.kept, e.2 = [1] ∧
      keptRun.2.mutator.randomData.get? e.1.dataSeed = some e.2 := by
  have htrace : (machine generatorSelector 2 1).Trace keptRun.1 keptRun.2 := exec_tiny 2 1 _
  obtain ⟨hcorpus, hall⟩ := corpus_data_kept htrace
  have hne : keptRun.1 ≠ [] := by decide +kernel
  -- the first call returned the entry
  have hentry : ∀ e ∈ keptRun.2.kept, e.2 = [1] ∧ Fuzz.Returns (keptRun.1.head hne) e := by
    unfold Fuzz.Returns
    decide +kernel +revert
  refine ⟨hcorpus, by decide +kernel, fun e he => ⟨(hentry e he).1, ?_⟩⟩
  obtain ⟨hdata, hrecycles⟩ := (hall e he).2 [] _ keptRun.1.tail
    (List.cons_head_tail hne).symm (hentry e he).2
  exact hdata (hrecycles (by decide +kernel))

end Difuzz.Mutator
