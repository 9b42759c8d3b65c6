/-
  File:      DifuzzRtl/Fuzzer/Guidance.lean
  Subject:   Which inputs enter the corpus, against the coverage of the RTL runs of a batch.

  * `observe` -- the RTL runs with their coverage, and the inputs that are added.
  * `Iter.Completed` -- no `continue` is taken after the RTL run. The other iterations leave
    `last_coverage` as it was, whatever their coverage is.
  * `run_observed` -- the batch as a function of its iterations (`observed`).
  * `OwnCoverage` -- an input is added for the coverage of its own run.
  * `ownCoverage_iff` -- when a batch has this property: new coverage of an iteration that was cut short
    is not left to the next one.
-/
import DifuzzRtl.Fuzzer.StopFlag

namespace Difuzz.Fuzzer

open Mutator Prog

/-! ## 1. Observations -/

inductive Obs where
  | rtl (coverage : Nat)
  | add (simInput : SimInput)
  deriving DecidableEq, Repr

def observe : Happens → Option Obs
  | ⟨.act (.rtlTest _ coverage), _⟩ => some (.rtl coverage)
  | ⟨.act (.addCorpus simInput), _⟩ => some (.add simInput)
  | _ => none

/-- The coverage of the RTL runs. -/
def coverages (l : List Obs) : List Nat :=
  l.filterMap fun
    | .rtl c => some c
    | .add _ => none

/-- **An input is added only if its own run has more coverage** than every earlier one. Its run is the
    last one before it is added. -/
def OwnCoverage (l : List Obs) : Prop :=
  ∀ (before : List Obs) x after, l = before ++ Obs.add x :: after →
    ∃ cs c, coverages before = cs ++ [c] ∧ ∀ c' ∈ cs, c' < c

/-- After the RTL run the iteration goes through: an interrupt is taken and the simulator runs again, there
    is no timeout, and NEMU accepts. -/
def Iter.Completed (it : Iter) : Prop :=
  (it.assertIntr = true ∧ it.rtlRet = success → it.epc ≠ 0 ∧ it.isaIntr.Ok) ∧
    it.rtlRet ≠ timeOut ∧ it.nemuRet = 0

instance (it : Iter) : Decidable it.Completed := inferInstanceAs (Decidable (_ ∧ _))

/-- The iterations with an RTL run: those before a `break` whose first simulation is in order. -/
def rtlRuns (its : List Iter) : List Iter :=
  (its.takeWhile fun it => it.compiled).filter fun it => it.isa.Ok

/-- The input is added. -/
def Iter.Adds (it : Iter) (last : Nat) : Prop := it.Completed ∧ last < it.coverage

instance (it : Iter) (last : Nat) : Decidable (it.Adds last) := inferInstanceAs (Decidable (_ ∧ _))

/-- What `last_coverage` is afterwards. -/
def Iter.lastAfter (it : Iter) (last : Nat) : Nat := if it.Adds last then it.coverage else last

/-- What an RTL run shows, and what follows it. -/
def Iter.shown (it : Iter) (last : Nat) : List Obs :=
  .rtl it.coverage :: if it.Adds last then [.add it.simInput] else []

/-- What the RTL runs of a batch show. -/
def observed : Nat → List Iter → List Obs
  | _, [] => []
  | last, it :: its => it.shown last ++ observed (it.lastAfter last) its

/-! ## 2. What the phases show -/

/-- What follows an RTL run: under a condition, the input is added if there is more coverage. -/
def Guides (it : Iter) (s : Local) (c : Prop) [Decidable c] (l : List Obs) (s' : Local) : Prop :=
  l = (if c ∧ s.lastCoverage < it.coverage then [.add it.simInput] else []) ∧
    s'.lastCoverage = if c ∧ s.lastCoverage < it.coverage then it.coverage else s.lastCoverage

section Phases

variable (o : Options) (i : Nat) (it : Iter) (s : Local)

theorem guides_of_not {c : Prop} [Decidable c] (h : ¬ c) (s' : Local)
    (hs : s'.lastCoverage = s.lastCoverage) : Guides it s c [] s' := by
  simp [Guides, h, hs]

theorem numberOf_quiet (c : Counter) (own : Nat) :
    Shows observe (numberOf o c own) fun l _ => l = [] := by
  simp [numberOf, takeNum, readNum, writeNum, observe]

theorem recordMismatch_quiet (dir : Dir) (num : Nat) (name : Text) :
    Shows observe (recordMismatch o dir num name) fun l _ => l = [] := by
  simp [recordMismatch, saveMismatch, observe]

theorem guide_guides : Shows observe (guide o i it s) (Guides it s True) := by
  unfold guide Guides
  split
  · rename_i h
    simp [numberOf, takeNum, readNum, writeNum, recordMismatch, saveMismatch, observe, h]
  · rename_i h
    simp [h]

theorem nemuTest_guides : Shows observe (nemuTest o i it s) (Guides it s (it.nemuRet = 0)) := by
  unfold nemuTest
  split
  · rename_i h
    exact shows_pure.mpr (guides_of_not it s h s rfl)
  · rename_i h
    have hguide : ∀ s₁ : Local, s₁.lastCoverage = s.lastCoverage →
        Shows observe (guide o i it s₁) (Guides it s (it.nemuRet = 0)) := by
      intro s₁ hs₁
      refine (guide_guides o i it s₁).mono fun l s' hg => ?_
      unfold Guides at hg ⊢
      rw [hs₁] at hg
      simpa [not_not.mp h] using hg
    have hemu : Shows observe (guide o i it { s with inputBin := true })
        (Guides it s (it.nemuRet = 0)) := hguide _ rfl
    have hplain := hguide s rfl
    split
    · simp [recordMismatch, saveMismatch, observe, hemu]
    · exact hplain

theorem reportMismatch_guides : Shows observe (reportMismatch o i it s)
    (Guides it s (it.rtlRet ≠ timeOut ∧ it.nemuRet = 0)) := by
  have hrest : ∀ n, Shows observe (if it.rtlRet = timeOut then pure { s with mismatchCount := n + 1 }
      else nemuTest o i it { s with mismatchCount := n + 1 })
      (Guides it s (it.rtlRet ≠ timeOut ∧ it.nemuRet = 0)) := by
    intro n
    split
    · rename_i h
      exact shows_pure.mpr (guides_of_not it s (fun hc => hc.1 h) _ rfl)
    · rename_i h
      refine (nemuTest_guides o i it _).mono fun l s' hg => ?_
      simpa [Guides, h] using hg
  unfold reportMismatch
  rw [shows_bind]
  refine (numberOf_quiet o _ _).mono fun l n hl => ?_
  rw [shows_bind]
  refine (recordMismatch_quiet o _ _ _).mono fun l' _ hl' => ?_
  subst hl hl'
  exact hrest n

theorem verify_guides : Shows observe (verify o i it s)
    (Guides it s (it.rtlRet ≠ timeOut ∧ it.nemuRet = 0)) := by
  have hnemu : it.rtlRet ≠ timeOut → ∀ s₁ : Local, s₁.lastCoverage = s.lastCoverage →
      Shows observe (nemuTest o i it s₁) (Guides it s (it.rtlRet ≠ timeOut ∧ it.nemuRet = 0)) := by
    intro h s₁ hs₁
    refine (nemuTest_guides o i it s₁).mono fun l s' hg => ?_
    unfold Guides at hg ⊢
    rw [hs₁] at hg
    simpa [h] using hg
  unfold verify
  split
  · rename_i hsuccess
    split
    · exact hnemu (by rw [hsuccess]; decide) s rfl
    · exact reportMismatch_guides o i it s
  · split
    · rename_i hill
      rw [shows_bind]
      refine (recordMismatch_quiet o _ _ _).mono fun l _ hl => ?_
      subst hl
      exact hnemu (by rw [hill]; decide) _ rfl
    · exact reportMismatch_guides o i it s

/-- **The branch with an RTL run.** -/
theorem rtlBranch_guides (hs : s.stopFlag ≠ .errIsaTimeout) : Shows observe (rtlBranch o i it s)
    fun l s' => l = it.shown s.lastCoverage ∧ s'.lastCoverage = it.lastAfter s.lastCoverage := by
  have hshown : ∀ l s', Guides it s it.Completed l s' →
      [.rtl it.coverage] ++ l = it.shown s.lastCoverage ∧
        s'.lastCoverage = it.lastAfter s.lastCoverage := by
    intro l s' hg
    exact ⟨congrArg _ hg.1, hg.2⟩
  have hverify : (it.assertIntr = true ∧ it.rtlRet = success → it.epc ≠ 0 ∧ it.isaIntr.Ok) →
      ∀ s₁ : Local, s₁.lastCoverage = s.lastCoverage →
      Shows observe (verify o i it s₁) fun l s' =>
        [.rtl it.coverage] ++ l = it.shown s.lastCoverage ∧
          s'.lastCoverage = it.lastAfter s.lastCoverage := by
    intro h s₁ hs₁
    refine (verify_guides o i it s₁).mono fun l s' hg => hshown l s' ?_
    have hc : (it.rtlRet ≠ timeOut ∧ it.nemuRet = 0) ↔ it.Completed :=
      ⟨fun hc => ⟨h, hc⟩, fun hc => hc.2⟩
    unfold Guides at hg ⊢
    rw [hs₁] at hg
    simpa only [hc] using hg
  have hcut : ∀ s₁ : Local, s₁.lastCoverage = s.lastCoverage → ¬ it.Completed →
      Shows observe (pure s₁) fun l s' => [.rtl it.coverage] ++ l = it.shown s.lastCoverage ∧
        s'.lastCoverage = it.lastAfter s.lastCoverage := by
    intro s₁ hs₁ hc
    exact shows_pure.mpr (hshown [] s₁ (guides_of_not it s hc s₁ hs₁))
  have hok := runIsaTest_normal_iff hs it.isaIntr
  unfold rtlBranch
  rw [shows_bind, shows_act]
  split
  · rename_i hintr
    split
    · rename_i hepc
      dsimp only
      split
      · rename_i hret
        exact hcut _ rfl fun hc => hret (hok.mpr (hc.1 hintr).2)
      · rename_i hret
        exact hverify (fun _ => ⟨hepc, hok.mp (not_not.mp hret)⟩) _ rfl
    · rename_i hepc
      exact hcut _ rfl fun hc => hepc (hc.1 hintr).1
  · rename_i hintr
    exact hverify (fun h => absurd h hintr) s rfl

/-- **An iteration** with a template that has an RTL run. -/
theorem testInput_observed (hrtl : it.UsesRtl) (hs : s.stopFlag ≠ .errIsaTimeout) :
    Shows observe (testInput o i it s) fun l s' =>
      l = (if it.isa.Ok then it.shown s.lastCoverage else []) ∧
        s'.lastCoverage = (if it.isa.Ok then it.lastAfter s.lastCoverage else s.lastCoverage) ∧
        s'.stopFlag ≠ .errIsaTimeout := by
  have hstop : Shows observe (testInput o i it s) fun _ s' => s'.stopFlag ≠ .errIsaTimeout := by
    intro tr s' hr
    rw [(testInput_stopFlag o i it s hs tr s' hr).2]
    exact stopAfter_ne_timeout hs _
  have hok := runIsaTest_normal_iff hs it.isa
  have hmain : Shows observe (testInput o i it s) fun l s' =>
      l = (if it.isa.Ok then it.shown s.lastCoverage else []) ∧
        s'.lastCoverage = if it.isa.Ok then it.lastAfter s.lastCoverage else s.lastCoverage := by
    unfold testInput
    dsimp only
    by_cases hisa : it.isa.Ok
    · have hu : it.simInput.template ≠ .vU ∧ it.simInput.template ≠ .pt := hrtl
      rw [if_neg (not_not.mpr (hok.mpr hisa)), if_pos hu]
      simp only [if_pos hisa]
      exact rtlBranch_guides o i it _ (runIsaTest_ne_timeout _ _)
    · rw [if_pos fun h => hisa (hok.mp h)]
      simp only [if_neg hisa]
      exact shows_pure.mpr ⟨rfl, rfl⟩
  refine (hmain.and hstop).mono fun l s' h => ?_
  exact ⟨h.1.1, h.1.2, h.2.choose_spec⟩

end Phases

/-! ## 3. What a batch shows -/

section Batch

variable {o : Options} {its : List Iter}

theorem rtlRuns_cons (it : Iter) (its : List Iter) (h : it.compiled = true) :
    rtlRuns (it :: its) = if it.isa.Ok then it :: rtlRuns its else rtlRuns its := by
  by_cases hok : it.isa.Ok
  · simp [rtlRuns, h, hok]
  · simp [rtlRuns, h, hok]

theorem fuzzFrom_observed (hits : ∀ it ∈ its, it.UsesRtl) (i : Nat) {s : Local}
    (hs : s.stopFlag ≠ .errIsaTimeout) :
    Shows observe (fuzzFrom o i its s) fun l _ => l = observed s.lastCoverage (rtlRuns its) := by
  induction its generalizing i s with
  | nil => exact shows_pure.mpr rfl
  | cons it its ih =>
      have hrest := fun it' h => hits it' (List.mem_cons_of_mem _ h)
      have hcorpus : Shows observe (updateCorpus o i) fun l _ => l = [] := by
        simp [updateCorpus, observe]
      rw [fuzzFrom, iteration]
      by_cases hc : it.compiled = true
      · rw [if_pos hc]
        simp only [shows_bind, shows_pure]
        refine hcorpus.mono fun l _ hl => ?_
        refine (testInput_observed o i it s (hits it List.mem_cons_self) hs).mono fun l' s' h => ?_
        refine (ih hrest (i + 1) h.2.2).mono fun l'' _ h'' => ?_
        rw [hl, h.1, h'', h.2.1, rtlRuns_cons it its hc]
        split
        · simp [observed]
        · simp
      · -- the loop is left before any run
        rw [if_neg hc]
        simp only [shows_bind, shows_pure]
        refine hcorpus.mono fun l _ hl => ?_
        rw [hl]
        simp [rtlRuns, hc, observed]

/-- **The batch as a function of its iterations.** -/
theorem run_observed (hits : ∀ it ∈ its, it.UsesRtl) :
    Shows observe (run o its) fun l _ => l = observed 0 (rtlRuns its) := by
  have hfuzz : Shows observe (fuzzFrom o 0 its {}) fun l _ => l = observed 0 (rtlRuns its) :=
    fuzzFrom_observed hits 0 (by decide)
  have hend : ∀ s, Shows observe (if o.multicore = true then finish o its.length s else pure ())
      fun l _ => l = [] := by
    intro s
    simp [finish, observe]
  have hmain : Shows observe (do
      let s ← fuzzFrom o 0 its {}
      if o.multicore = true then finish o its.length s else pure ())
      fun l _ => l = observed 0 (rtlRuns its) := by
    rw [shows_bind]
    refine hfuzz.mono fun l s hl => (hend s).mono fun l' _ hl' => ?_
    rw [hl, hl', List.append_nil]
  unfold run
  by_cases ho : o.multicore = true
  · simp only [ho, if_true] at hmain ⊢
    rw [shows_bind, shows_act]
    exact hmain
  · simp only [ho] at hmain ⊢
    exact hmain

end Batch

/-! ## 4. Own coverage -/

section Own

/-- `OwnCoverage`, after runs with the coverages `seen`. -/
def OwnAfter (seen : List Nat) (l : List Obs) : Prop :=
  ∀ (before : List Obs) x after, l = before ++ Obs.add x :: after →
    ∃ cs c, seen ++ coverages before = cs ++ [c] ∧ ∀ c' ∈ cs, c' < c

/-- `last_coverage` after some RTL runs. -/
def lastOf (last : Nat) (rs : List Iter) : Nat := rs.foldl (fun last r => r.lastAfter last) last

theorem ownAfter_rtl (seen : List Nat) (c : Nat) (l : List Obs) :
    OwnAfter seen (.rtl c :: l) ↔ OwnAfter (seen ++ [c]) l := by
  have hcov : ∀ before, seen ++ coverages (.rtl c :: before) = seen ++ [c] ++ coverages before :=
    fun before => by simp [coverages]
  constructor
  · intro h before x after hl
    rw [← hcov]
    exact h (.rtl c :: before) x after (by rw [hl]; rfl)
  · intro h before x after hl
    cases before with
    | nil => cases hl
    | cons y before =>
        obtain ⟨rfl, rfl⟩ := List.cons.inj hl
        rw [hcov]
        exact h before x after rfl

theorem ownAfter_add (seen : List Nat) (c : Nat) (y : SimInput) (l : List Obs) :
    OwnAfter (seen ++ [c]) (.add y :: l) ↔
      (∀ c' ∈ seen, c' < c) ∧ OwnAfter (seen ++ [c]) l := by
  have hcov : ∀ before, coverages (.add y :: before) = coverages before := fun before => rfl
  constructor
  · intro h
    refine ⟨?_, fun before x after hl => ?_⟩
    · obtain ⟨cs, c₁, hcs, hlt⟩ := h [] y l rfl
      have hsplit : seen ++ [c] = cs ++ [c₁] := by simpa [coverages] using hcs
      obtain ⟨rfl, hc⟩ := List.append_inj' hsplit rfl
      obtain rfl : c = c₁ := (List.cons.inj hc).1
      exact hlt
    · rw [← hcov]
      exact h (.add y :: before) x after (by rw [hl]; rfl)
  · intro hx before x after hl
    obtain ⟨hlt, h⟩ := hx
    cases before with
    | nil => exact ⟨seen, c, by simp [coverages], hlt⟩
    | cons z before =>
        obtain ⟨rfl, rfl⟩ := List.cons.inj hl
        rw [hcov]
        exact h before x after rfl

/-- The property, run by run. -/
theorem ownAfter_observed (rs : List Iter) (seen : List Nat) (last : Nat) :
    OwnAfter seen (observed last rs) ↔ ∀ (pre : List Iter) (r : Iter) post, rs = pre ++ r :: post →
      r.Adds (lastOf last pre) → (∀ c ∈ seen, c < r.coverage) ∧ ∀ x ∈ pre, x.coverage < r.coverage := by
  induction rs generalizing seen last with
  | nil =>
      refine ⟨fun _ pre r post h => absurd h (by simp), fun _ before x after h => absurd h (by simp [observed])⟩
  | cons r rs ih =>
      -- the first run, and the runs after it
      have hsplit : (∀ (pre : List Iter) (r' : Iter) post, r :: rs = pre ++ r' :: post →
          r'.Adds (lastOf last pre) →
            (∀ c ∈ seen, c < r'.coverage) ∧ ∀ x ∈ pre, x.coverage < r'.coverage) ↔
          (r.Adds last → ∀ c ∈ seen, c < r.coverage) ∧
          ∀ (pre : List Iter) (r' : Iter) post, rs = pre ++ r' :: post →
            r'.Adds (lastOf (r.lastAfter last) pre) →
              (∀ c ∈ seen ++ [r.coverage], c < r'.coverage) ∧
                ∀ x ∈ pre, x.coverage < r'.coverage := by
        constructor
        · intro h
          refine ⟨fun hadd => (h [] r rs rfl hadd).1, fun pre r' post hrs hadd => ?_⟩
          obtain ⟨hseen, hpre⟩ := h (r :: pre) r' post (by rw [hrs]; rfl) hadd
          rw [List.forall_mem_cons] at hpre
          refine ⟨fun c hc => ?_, hpre.2⟩
          rcases List.mem_append.mp hc with hc | hc
          · exact hseen c hc
          · rw [List.mem_singleton.mp hc]
            exact hpre.1
        · intro hex pre r' post hrs hadd
          obtain ⟨hfirst, hrest⟩ := hex
          cases pre with
          | nil =>
              obtain ⟨rfl, rfl⟩ := List.cons.inj hrs
              exact ⟨hfirst hadd, fun x hx => (nomatch hx)⟩
          | cons y pre =>
              obtain ⟨rfl, rfl⟩ := List.cons.inj hrs
              obtain ⟨hseen, hpre⟩ := hrest pre r' post rfl hadd
              refine ⟨fun c hc => hseen c (List.mem_append_left _ hc), ?_⟩
              rw [List.forall_mem_cons]
              exact ⟨hseen _ (List.mem_append_right _ (List.mem_singleton_self _)), hpre⟩
      rw [hsplit, ← ih, observed, Iter.shown, List.cons_append, ownAfter_rtl]
      by_cases hadd : r.Adds last
      · rw [if_pos hadd, List.singleton_append, ownAfter_add]
        exact and_congr_left fun _ => ⟨fun h _ => h, fun h => h hadd⟩
      · rw [if_neg hadd, List.nil_append]
        exact ⟨fun h => ⟨fun h' => absurd h' hadd, h⟩, fun h => h.2⟩

/-- `last_coverage` is the most coverage of the completed runs. -/
theorem le_lastOf (rs : List Iter) (last : Nat) :
    last ≤ lastOf last rs ∧ ∀ x ∈ rs, x.Completed → x.coverage ≤ lastOf last rs := by
  induction rs generalizing last with
  | nil => exact ⟨le_refl _, fun x hx => (nomatch hx)⟩
  | cons r rs ih =>
      obtain ⟨hle, hall⟩ := ih (r.lastAfter last)
      have hlast : last ≤ r.lastAfter last ∧ (r.Completed → r.coverage ≤ r.lastAfter last) := by
        by_cases hadd : r.Adds last
        · rw [Iter.lastAfter, if_pos hadd]
          exact ⟨le_of_lt hadd.2, fun _ => le_refl _⟩
        · rw [Iter.lastAfter, if_neg hadd]
          exact ⟨le_refl _, fun hc => not_lt.mp fun hlt => hadd ⟨hc, hlt⟩⟩
      refine ⟨hlast.1.trans hle, fun x hx hc => ?_⟩
      rcases List.mem_cons.mp hx with rfl | hx
      · exact (hlast.2 hc).trans hle
      · exact hall x hx hc

theorem lastOf_cases (rs : List Iter) (last : Nat) :
    lastOf last rs = last ∨ ∃ x ∈ rs, x.Completed ∧ x.coverage = lastOf last rs := by
  induction rs generalizing last with
  | nil => exact .inl rfl
  | cons r rs ih =>
      have hcons : lastOf last (r :: rs) = lastOf (r.lastAfter last) rs := rfl
      rw [hcons]
      rcases ih (r.lastAfter last) with h | ⟨x, hx, hc⟩
      · rw [h]
        unfold Iter.lastAfter
        split
        · rename_i hadd
          exact .inr ⟨r, List.mem_cons_self, hadd.1, rfl⟩
        · exact .inl rfl
      · exact .inr ⟨x, List.mem_cons_of_mem _ hx, hc⟩

/-- **New coverage is not left to the next input**: after an iteration that was cut short with more
    coverage than all before it, the next one that goes through has still more. -/
def NothingLeft (rs : List Iter) : Prop :=
  ∀ (pre : List Iter) (j : Iter) mid (k : Iter) post, rs = pre ++ j :: mid ++ k :: post →
    ¬ j.Completed → 0 < j.coverage → (∀ x ∈ pre, x.coverage < j.coverage) → (∀ x ∈ mid, ¬ x.Completed) →
    k.Completed → j.coverage < k.coverage

/-- The first element of a list with a property. -/
theorem exists_first {α : Type} {p : α → Prop} {l : List α} (h : ∃ x ∈ l, p x) :
    ∃ l₁ x l₂, l = l₁ ++ x :: l₂ ∧ p x ∧ ∀ y ∈ l₁, ¬ p y := by
  induction l with
  | nil => exact absurd h (by simp)
  | cons a l ih =>
      by_cases ha : p a
      · exact ⟨[], a, l, rfl, ha, fun y hy => (nomatch hy)⟩
      · obtain ⟨x, hx, hpx⟩ := h
        rcases List.mem_cons.mp hx with rfl | hx
        · exact absurd hpx ha
        · obtain ⟨l₁, y, l₂, rfl, hy, hl₁⟩ := ih ⟨x, hx, hpx⟩
          refine ⟨a :: l₁, y, l₂, rfl, hy, fun z hz => ?_⟩
          rcases List.mem_cons.mp hz with rfl | hz
          · exact ha
          · exact hl₁ z hz

/-- For runs whose coverage does not decrease. -/
theorem ownCoverage_observed {rs : List Iter}
    (hmono : rs.Pairwise fun a b => a.coverage ≤ b.coverage) :
    OwnCoverage (observed 0 rs) ↔ NothingLeft rs := by
  have hown : OwnCoverage (observed 0 rs) ↔ OwnAfter [] (observed 0 rs) := by
    simp only [OwnCoverage, OwnAfter, List.nil_append]
  rw [hown, ownAfter_observed]
  constructor
  · intro h pre j mid k post hrs hj hpos hpre hmid hk
    have hjk : j.coverage ≤ k.coverage := by
      rw [hrs, List.pairwise_append] at hmono
      exact hmono.2.2 j (by simp) k (by simp)
    have hlast : lastOf 0 (pre ++ j :: mid) < k.coverage := by
      rcases lastOf_cases (pre ++ j :: mid) 0 with h0 | ⟨x, hx, hc, hcov⟩
      · rw [h0]
        exact lt_of_lt_of_le hpos hjk
      · -- a completed run before is one before the cut
        rcases List.mem_append.mp hx with hx | hx
        · rw [← hcov]
          exact lt_of_lt_of_le (hpre x hx) hjk
        · rcases List.mem_cons.mp hx with rfl | hx
          · exact absurd hc hj
          · exact absurd hc (hmid x hx)
    exact (h (pre ++ j :: mid) k post hrs ⟨hk, hlast⟩).2 j (by simp)
  · intro h pre r post hrs hadd
    refine ⟨fun c hc => (nomatch hc), fun x hx => ?_⟩
    by_contra hlt
    -- the first run with that coverage was cut short, and `r` is credited with it
    obtain ⟨p₁, j, p₂, rfl, hj, hp₁⟩ := exists_first (p := fun y => r.coverage ≤ y.coverage)
      ⟨x, hx, not_lt.mp hlt⟩
    obtain ⟨mid, k, rest, hfirst, hk, hmid⟩ := exists_first (p := Iter.Completed) (l := p₂ ++ [r])
      ⟨r, by simp, hadd.1⟩
    have hsplit : rs = p₁ ++ j :: mid ++ k :: (rest ++ post) := by
      have hrest : p₂ ++ r :: post = mid ++ k :: (rest ++ post) := by
        rw [List.append_cons, hfirst, List.append_assoc, List.cons_append]
      rw [hrs, List.append_assoc, List.cons_append, hrest, List.append_assoc, List.cons_append]
    have hkr : k.coverage ≤ r.coverage := by
      have hmem : k ∈ p₂ ++ [r] := by
        rw [hfirst]
        simp
      rcases List.mem_append.mp hmem with hk₂ | hk₂
      · rw [hrs, List.pairwise_append] at hmono
        exact hmono.2.2 k (by simp [hk₂]) r (by simp)
      · rw [List.mem_singleton.mp hk₂]
    have hj' : ¬ j.Completed := by
      intro hc
      have hle := (le_lastOf (p₁ ++ j :: p₂) 0).2 j (by simp) hc
      exact absurd (lt_of_le_of_lt (hj.trans hle) hadd.2) (lt_irrefl _)
    have hpos : 0 < j.coverage := lt_of_lt_of_le (lt_of_le_of_lt (Nat.zero_le _) hadd.2) hj
    have hnew : ∀ x ∈ p₁, x.coverage < j.coverage :=
      fun y hy => lt_of_lt_of_le (not_le.mp (hp₁ y hy)) hj
    have hlt' := h p₁ j mid k (rest ++ post) hsplit hj' hpos hnew hmid hk
    exact absurd (lt_of_lt_of_le hlt' (hkr.trans hj)) (lt_irrefl _)

/-- **Inputs enter the corpus for their own coverage** if and only if no new coverage is left behind by an
    iteration that is cut short. The coverage of the RTL runs does not decrease. -/
theorem ownCoverage_iff {o : Options} {its : List Iter} (hits : ∀ it ∈ its, it.UsesRtl)
    (hmono : (rtlRuns its).Pairwise fun a b => a.coverage ≤ b.coverage) {tr : List Happens}
    (h : Runs (run o its) tr ()) :
    OwnCoverage (tr.filterMap observe) ↔ NothingLeft (rtlRuns its) := by
  rw [run_observed hits tr () h]
  exact ownCoverage_observed hmono

end Own

/-! ## 5. Two batches -/

/-- An iteration in order, with some coverage. -/
def covering (coverage : Nat) : Iter := { Iter.calm with coverage }

/-- NEMU does not accept the input. -/
def rejected (coverage : Nat) : Iter := { Iter.calm with coverage, nemuRet := -1 }

/-- New coverage of a rejected input, and then still more. -/
theorem ownCoverage_iff_more : ∃ tr, Runs (run (.campaign 0) [rejected 5, covering 6]) tr () ∧
    OwnCoverage (tr.filterMap observe) := by
  have hr : Runs (run (.campaign 0) [rejected 5, covering 6]) _ () := runs_of_replay (a := ())
    (rfl : replay alone _ = some (_, ()))
  refine ⟨_, hr, (ownCoverage_iff (by decide) (by decide) hr).mpr ?_⟩
  intro pre j mid k post hrs hj hpos hpre hmid hk
  have hruns : rtlRuns [rejected 5, covering 6] = [rejected 5, covering 6] := by decide
  rw [hruns] at hrs
  have hlen := congrArg List.length hrs
  simp only [List.length_append, List.length_cons, List.length_nil] at hlen
  obtain rfl : pre = [] := List.length_eq_zero_iff.mp (by omega)
  obtain rfl : mid = [] := List.length_eq_zero_iff.mp (by omega)
  rw [List.nil_append, List.singleton_append, List.cons.injEq, List.cons.injEq] at hrs
  rw [← hrs.1, ← hrs.2.1]
  decide

/-- **The second input is added for the coverage of the first**, which NEMU has rejected. -/
theorem not_ownCoverage_rejected : ∃ tr, Runs (run (.campaign 0) [rejected 5, covering 5]) tr () ∧
    ¬ OwnCoverage (tr.filterMap observe) := by
  refine ⟨_, runs_of_replay (a := ()) (rfl : replay alone _ = some (_, ())), fun h => ?_⟩
  obtain ⟨cs, c, hcs, hlt⟩ := h [.rtl 5, .rtl 5] Iter.calm.simInput [] (by decide)
  have hsplit : [5] ++ [5] = cs ++ [c] := hcs
  obtain ⟨rfl, hc⟩ := List.append_inj' hsplit rfl
  obtain rfl : 5 = c := (List.cons.inj hc).1
  exact absurd (hlt 5 (List.mem_singleton_self 5)) (lt_irrefl 5)

end Difuzz.Fuzzer
