/-
  File:      DifuzzRtl/Fuzzer/Numbering.lean
  Subject:   The shared counters `mNum` and `cNum`, for any number of processes and any order of their steps.

  * `Paired` -- a process uses a counter in pairs only: P, read, (anything else), write of the successor, V.
    The loop of the fuzzer does (`run_paired`).
  * `numbering` -- any number of such processes over the shared state, from the constructor on.
  * `Ledger` -- what a list of events says of one counter: who is between P and V, which numbers were
    obtained, and those of the pairs that are complete.
  * `CounterOk`, `Inv` -- the invariant: a counter is free, or one process is at one place of its pair.
  * `numbers_consecutive` -- no number is lost or given twice.
-/
import DifuzzRtl.Lib.Runs
import DifuzzRtl.Fuzzer.Run

namespace Difuzz.Fuzzer

open Prog

/-! ## 1. Pairs -/

/-- Where a process is in its pair. -/
inductive Phase where
  | idle
  | entered (c : Counter)
  | holding (c : Counter) (n : Nat)
  | leaving (c : Counter) (n : Nat)

/-- The process is between the P and the V of a counter. -/
def Phase.On (c : Counter) : Phase → Prop
  | .idle => False
  | .entered c' | .holding c' _ | .leaving c' _ => c' = c

/-- The action is a step of a semaphore or of the shared memory. -/
def Act.Counts : Act → Prop
  | .p _ | .v _ | .write .. => True
  | _ => False

/-- **From this phase on, the program uses the counters in pairs.** It may end, or raise an exception,
    only outside of a pair. -/
inductive Paired {α : Type} : Phase → Program α → Prop where
  | done (a : α) : Paired .idle (.ret a)
  | raise (k : Empty → Program α) : Paired .idle (.op .raise k)
  | other (ph : Phase) (a : Act) (k : Unit → Program α) (ha : ¬ a.Counts) (h : Paired ph (k ())) :
      Paired ph (.op (.act a) k)
  | enter (c : Counter) (k : Unit → Program α) (h : Paired (.entered c) (k ())) :
      Paired .idle (.op (.act (.p c)) k)
  | obtain (c : Counter) (k : Nat → Program α) (h : ∀ n, Paired (.holding c n) (k n)) :
      Paired (.entered c) (.op (.read c) k)
  | store (c : Counter) (n : Nat) (k : Unit → Program α) (h : Paired (.leaving c n) (k ())) :
      Paired (.holding c n) (.op (.act (.write c (n + 1))) k)
  | leave (c : Counter) (n : Nat) (k : Unit → Program α) (h : Paired .idle (k ())) :
      Paired (.leaving c n) (.op (.act (.v c)) k)

section Rules

variable {α β : Type}

theorem Paired.bind {ph : Phase} {p : Program α} {f : α → Program β} (hp : Paired ph p)
    (hf : ∀ a, Paired .idle (f a)) : Paired ph (p >>= f) := by
  show Paired ph (p.bind f)
  induction hp with
  | done a => exact hf a
  | raise k => exact .raise _
  | other ph a k ha _ ih => exact .other ph a _ ha ih
  | enter c k _ ih => exact .enter c _ ih
  | obtain c k _ ih => exact .obtain c _ ih
  | store c n k _ ih => exact .store c n _ ih
  | leave c n k _ ih => exact .leave c n _ ih

theorem paired_pure (a : α) : Paired .idle (pure a : Program α) := .done a

theorem paired_perform {a : Act} (h : ¬ a.Counts) : Paired .idle (perform a) :=
  .other _ a _ h (.done ())

theorem paired_ite {c : Prop} [Decidable c] {p q : Program α} {ph : Phase} (hp : Paired ph p)
    (hq : Paired ph q) : Paired ph (if c then p else q) := by
  split
  · exact hp
  · exact hq

theorem paired_takeNum (c : Counter) : Paired .idle (takeNum c) :=
  .enter c _ (.obtain c _ fun n => .store c n _ (.leave c n _ (.done n)))

end Rules

/-! ## 2. The fuzzing loop -/

section Loop

variable (o : Options) (i : Nat) (it : Iter) (s : Local)

theorem numberOf_paired (c : Counter) (own : Nat) : Paired .idle (numberOf o c own) :=
  paired_ite (paired_takeNum c) (paired_pure own)

theorem saveMismatch_paired (dir : Dir) (num : Nat) (name : Text) :
    Paired .idle (saveMismatch o dir num name) := paired_perform id

theorem recordMismatch_paired (dir : Dir) (num : Nat) (name : Text) :
    Paired .idle (recordMismatch o dir num name) :=
  paired_ite (saveMismatch_paired o dir num name) (paired_pure ())

theorem guide_paired : Paired .idle (guide o i it s) := by
  refine paired_ite ?_ (paired_pure s)
  refine (numberOf_paired o _ _).bind fun n => ?_
  have hrest : Paired .idle (do
      recordMismatch o .corpus n it.generatorName
      perform (.addCorpus it.simInput)
      perform (.updatePhase i)
      return { s with lastCoverage := it.coverage, coverageCount := n + 1 }) :=
    (recordMismatch_paired ..).bind fun _ => (paired_perform id).bind fun _ =>
      (paired_perform id).bind fun _ => paired_pure _
  exact paired_ite ((paired_perform id).bind fun _ => hrest) hrest

theorem nemuTest_paired : Paired .idle (nemuTest o i it s) := by
  refine paired_ite (paired_pure s) (paired_ite ?_ (guide_paired o i it s))
  exact paired_ite ((recordMismatch_paired ..).bind fun _ => guide_paired o i it _) (guide_paired o i it _)

theorem reportMismatch_paired : Paired .idle (reportMismatch o i it s) :=
  (numberOf_paired o _ _).bind fun _ => (recordMismatch_paired ..).bind fun _ =>
    paired_ite (paired_pure _) (nemuTest_paired o i it _)

theorem verify_paired : Paired .idle (verify o i it s) := by
  refine paired_ite (paired_ite (nemuTest_paired o i it s) (reportMismatch_paired o i it s)) ?_
  refine paired_ite ?_ (reportMismatch_paired o i it s)
  exact (recordMismatch_paired ..).bind fun _ => nemuTest_paired o i it _

theorem rtlBranch_paired : Paired .idle (rtlBranch o i it s) := by
  refine (paired_perform id).bind fun _ => paired_ite (paired_ite ?_ (paired_pure s)) (verify_paired o i it s)
  exact paired_ite (paired_pure _) (verify_paired o i it _)

theorem emuBranch_paired : Paired .idle (emuBranch o it s) := by
  have hemu : Paired .idle (emuTest o it s) := by
    refine paired_ite (paired_ite ?_ (.raise _)) (paired_pure ())
    exact paired_ite (saveMismatch_paired ..) (saveMismatch_paired ..)
  exact paired_ite (paired_pure s) (hemu.bind fun _ => (paired_perform id).bind fun _ => paired_pure _)

theorem iteration_paired : Paired .idle (iteration o i it s) := by
  have hcorpus : Paired .idle (updateCorpus o i) :=
    paired_ite (paired_ite (paired_perform id) (paired_ite (paired_perform id) (paired_pure ())))
      (paired_pure ())
  have htest : Paired .idle (testInput o i it s) :=
    paired_ite (paired_pure _) (paired_ite (rtlBranch_paired o i it _) (emuBranch_paired o it _))
  exact hcorpus.bind fun _ => paired_ite (htest.bind fun _ => paired_pure _) (paired_pure _)

theorem fuzzFrom_paired (its : List Iter) : Paired .idle (fuzzFrom o i its s) := by
  induction its generalizing i s with
  | nil => exact paired_pure s
  | cons it its ih =>
      refine (iteration_paired o i it s).bind fun next => ?_
      cases next with
      | go s => exact ih (i + 1) s
      | stop s => exact paired_pure s

/-- **A fuzzing process uses the counters in pairs.** -/
theorem run_paired (its : List Iter) : Paired .idle (run o its) := by
  have hfinish : ∀ s, Paired .idle (finish o its.length s) := by
    intro s
    have hrest : Paired .idle (do
        perform (.setState o.procNum s.stopFlag)
        perform (.covStore o.procNum)
        perform (.storeCovmap o.procNum (o.startIter + its.length))) :=
      (paired_perform id).bind fun _ => (paired_perform id).bind fun _ => paired_perform id
    exact paired_ite ((paired_perform id).bind fun _ => hrest) hrest
  have hfuzz : Paired .idle (do
      let s ← fuzzFrom o 0 its {}
      if o.multicore then finish o its.length s else pure ()) :=
    (fuzzFrom_paired o 0 {} its).bind fun s => paired_ite (hfinish s) (paired_pure ())
  exact paired_ite ((paired_perform id).bind fun _ => hfuzz) hfuzz

end Loop

/-! ## 3. Many processes -/

abbrev Campaign := Processes Shared Eff Ans

/-- **Processes that use the counters in pairs**, from the end of the constructor on. -/
def numbering (mNum cNum : Nat) : Machine Campaign Nat where
  init st := (∃ saved, ProcManager.new mNum cNum saved = some st.shared) ∧
    (∀ i, Paired .idle (st.procs i)) ∧ st.events = []
  step st i st' := st.turn Shared.handle i = some st'

/-- What is known of a counter: who is between P and V, the number that each process obtained last, all
    numbers obtained, and those of the complete pairs, in the order in which they were completed. -/
structure Ledger where
  inside : Nat → Bool
  last : Nat → Nat
  obtained : List Nat
  done : List Nat

namespace Ledger

def empty : Ledger := ⟨fun _ => false, fun _ => 0, [], []⟩

def add (c : Counter) (L : Ledger) : Nat × Happens → Ledger
  | (i, ⟨.act (.p c'), _⟩) => if c' = c then { L with inside := Function.update L.inside i true } else L
  | (i, ⟨.act (.v c'), _⟩) =>
      if c' = c then
        { L with inside := Function.update L.inside i false, done := L.done ++ [L.last i] }
      else L
  | (i, ⟨.read c', (n : Nat)⟩) =>
      if c' = c then { L with last := Function.update L.last i n, obtained := L.obtained ++ [n] } else L
  | _ => L

end Ledger

/-- The ledger of a counter after some events. -/
def ledger (c : Counter) (events : List (Nat × Happens)) : Ledger := events.foldl (Ledger.add c) .empty

theorem ledger_append (c : Counter) (events : List (Nat × Happens)) (x : Nat × Happens) :
    ledger c (events ++ [x]) = (ledger c events).add c x := by
  rw [ledger, List.foldl_append]
  rfl

/-! ## 4. The invariant -/

/-- A counter that started with `init`: it is free, or one process is at some place of its pair. -/
inductive CounterOk (init : Nat) (c : Counter) (ph : Nat → Phase) (sem value : Nat) (L : Ledger) : Prop where
  | free (hph : ∀ j, ¬ (ph j).On c) (hsem : sem = 1) (hv : value = init + L.done.length)
      (ho : L.obtained = L.done)
  | entered (i : Nat) (hi : ph i = .entered c) (hph : ∀ j, (ph j).On c → j = i) (hsem : sem = 0)
      (hv : value = init + L.done.length) (ho : L.obtained = L.done)
  | holding (i : Nat) (hi : ph i = .holding c (init + L.done.length)) (hph : ∀ j, (ph j).On c → j = i)
      (hsem : sem = 0) (hv : value = init + L.done.length) (hl : L.last i = init + L.done.length)
      (ho : L.obtained = L.done ++ [init + L.done.length])
  | leaving (i : Nat) (hi : ph i = .leaving c (init + L.done.length)) (hph : ∀ j, (ph j).On c → j = i)
      (hsem : sem = 0) (hv : value = init + L.done.length + 1) (hl : L.last i = init + L.done.length)
      (ho : L.obtained = L.done ++ [init + L.done.length])

/-- The invariant of one counter. -/
structure CounterInv (init : Nat) (c : Counter) (ph : Nat → Phase) (s : Shared) (L : Ledger) : Prop where
  ok : CounterOk init c ph (s.sem c) (s.value c) L
  done : L.done = List.range' init L.done.length
  inside : ∀ j, L.inside j = true ↔ (ph j).On c

/-- **The invariant**: every process is in some phase of a pair, and both counters are in order. -/
def Inv (init : Counter → Nat) (st : Campaign) : Prop :=
  ∃ ph : Nat → Phase, (∀ i, Paired (ph i) (st.procs i)) ∧
    ∀ c, CounterInv (init c) c ph st.shared (ledger c st.events)

section Steps

variable {init : Nat} {c : Counter} {ph : Nat → Phase} {s s' : Shared} {L : Ledger} {i : Nat}

/-- The counter is not concerned. -/
theorem CounterInv.frame {ph₁ : Phase} (h : CounterInv init c ph s L) (hsem : s'.sem c = s.sem c)
    (hv : s'.value c = s.value c) (hph : ph₁ = ph i ∨ (¬ (ph i).On c ∧ ¬ ph₁.On c)) :
    CounterInv init c (Function.update ph i ph₁) s' L := by
  have hon : ∀ j, (Function.update ph i ph₁ j).On c ↔ (ph j).On c := by
    intro j
    by_cases hj : j = i
    · subst hj
      rw [Function.update_self]
      rcases hph with rfl | ⟨h₁, h₂⟩
      · exact Iff.rfl
      · exact iff_of_false h₂ h₁
    · rw [Function.update_of_ne hj]
  have hkeep : ∀ j, (ph j).On c → Function.update ph i ph₁ j = ph j := by
    intro j hj
    by_cases hji : j = i
    · subst hji
      rw [Function.update_self]
      rcases hph with rfl | ⟨h₁, -⟩
      · rfl
      · exact absurd hj h₁
    · exact Function.update_of_ne hji _ _
  refine ⟨?_, h.done, fun j => (h.inside j).trans (hon j).symm⟩
  rw [hsem, hv]
  cases h.ok with
  | free hp hs hv ho => exact .free (fun j hj => hp j ((hon j).mp hj)) hs hv ho
  | entered k hk hp hs hv ho =>
      have honk : (ph k).On c := by rw [hk]; rfl
      exact .entered k ((hkeep k honk).trans hk) (fun j hj => hp j ((hon j).mp hj)) hs hv ho
  | holding k hk hp hs hv hl ho =>
      have honk : (ph k).On c := by rw [hk]; rfl
      exact .holding k ((hkeep k honk).trans hk) (fun j hj => hp j ((hon j).mp hj)) hs hv hl ho
  | leaving k hk hp hs hv hl ho =>
      have honk : (ph k).On c := by rw [hk]; rfl
      exact .leaving k ((hkeep k honk).trans hk) (fun j hj => hp j ((hon j).mp hj)) hs hv hl ho

/-- At most one process is on the counter, also after it has gone on. -/
theorem on_update {ph₁ : Phase} (h : ∀ j, (ph j).On c → j = i) (j : Nat)
    (hj : (Function.update ph i ph₁ j).On c) : j = i := by
  by_cases hji : j = i
  · exact hji
  · rw [Function.update_of_ne hji] at hj
    exact h j hj

theorem inside_update {b : Bool} {ph₁ : Phase} (h : ∀ j, L.inside j = true ↔ (ph j).On c)
    (hb : b = true ↔ ph₁.On c) (j : Nat) :
    Function.update L.inside i b j = true ↔ (Function.update ph i ph₁ j).On c := by
  by_cases hji : j = i
  · subst hji
    rw [Function.update_self, Function.update_self]
    exact hb
  · rw [Function.update_of_ne hji, Function.update_of_ne hji]
    exact h j

/-- A process that stays on the counter. -/
theorem inside_of_on {ph₁ : Phase} (h : ∀ j, L.inside j = true ↔ (ph j).On c) (hi : (ph i).On c)
    (h₁ : ph₁.On c) (j : Nat) : L.inside j = true ↔ (Function.update ph i ph₁ j).On c := by
  by_cases hji : j = i
  · subst hji
    rw [Function.update_self]
    exact iff_of_true ((h j).mpr hi) h₁
  · rw [Function.update_of_ne hji]
    exact h j

/-- **P**: only a free counter lets a process in. -/
theorem CounterInv.enter (h : CounterInv init c ph s L) (hpos : 0 < s.sem c)
    (hsem : s'.sem c = s.sem c - 1) (hv : s'.value c = s.value c) :
    CounterInv init c (Function.update ph i (.entered c)) s'
      { L with inside := Function.update L.inside i true } := by
  refine ⟨?_, h.done, inside_update h.inside ⟨fun _ => rfl, fun _ => rfl⟩⟩
  rw [hsem, hv]
  cases h.ok with
  | free hp hs hval ho =>
      refine .entered i (Function.update_self ..) (on_update fun j hj => absurd hj (hp j)) (by omega) hval ho
  | entered k hk hp hs => omega
  | holding k hk hp hs => omega
  | leaving k hk hp hs => omega

/-- **The number is read.** -/
theorem CounterInv.obtain (h : CounterInv init c ph s L) (hi : ph i = .entered c) :
    CounterInv init c (Function.update ph i (.holding c (s.value c))) s
      { L with last := Function.update L.last i (s.value c), obtained := L.obtained ++ [s.value c] } := by
  have hon : (ph i).On c := by rw [hi]; rfl
  refine ⟨?_, h.done, inside_of_on h.inside hon rfl⟩
  cases h.ok with
  | free hp => exact absurd hon (hp i)
  | entered k hk hp hs hval ho =>
      obtain rfl := hp i hon
      refine .holding i ?_ (on_update hp) hs hval ?_ ?_
      · rw [Function.update_self, hval]
      · show Function.update L.last i (s.value c) i = _
        rw [Function.update_self, hval]
      · show L.obtained ++ [s.value c] = _
        rw [ho, hval]
  | holding k hk hp =>
      obtain rfl := hp i hon
      rw [hi] at hk
      cases hk
  | leaving k hk hp =>
      obtain rfl := hp i hon
      rw [hi] at hk
      cases hk

/-- **The successor is written.** -/
theorem CounterInv.store {n : Nat} (h : CounterInv init c ph s L) (hi : ph i = .holding c n)
    (hsem : s'.sem c = s.sem c) (hv : s'.value c = n + 1) :
    CounterInv init c (Function.update ph i (.leaving c n)) s' L := by
  have hon : (ph i).On c := by rw [hi]; rfl
  refine ⟨?_, h.done, inside_of_on h.inside hon rfl⟩
  rw [hsem, hv]
  cases h.ok with
  | free hp => exact absurd hon (hp i)
  | entered k hk hp =>
      obtain rfl := hp i hon
      rw [hi] at hk
      cases hk
  | holding k hk hp hs hval hl ho =>
      obtain rfl := hp i hon
      rw [hi] at hk
      cases hk
      exact .leaving i (Function.update_self ..) (on_update hp) hs rfl hl ho
  | leaving k hk hp =>
      obtain rfl := hp i hon
      rw [hi] at hk
      cases hk

/-- **V**: the pair is complete, and the counter is free. -/
theorem CounterInv.leave {n : Nat} (h : CounterInv init c ph s L) (hi : ph i = .leaving c n)
    (hsem : s'.sem c = s.sem c + 1) (hv : s'.value c = s.value c) :
    CounterInv init c (Function.update ph i .idle) s'
      { L with inside := Function.update L.inside i false, done := L.done ++ [L.last i] } := by
  have hon : (ph i).On c := by rw [hi]; rfl
  have hoff : ∀ j, (∀ j, (ph j).On c → j = i) → ¬ (Function.update ph i Phase.idle j).On c := by
    intro j hp hj
    obtain rfl := on_update hp j hj
    rw [Function.update_self] at hj
    exact hj
  cases h.ok with
  | free hp => exact absurd hon (hp i)
  | entered k hk hp =>
      obtain rfl := hp i hon
      rw [hi] at hk
      cases hk
  | holding k hk hp =>
      obtain rfl := hp i hon
      rw [hi] at hk
      cases hk
  | leaving k hk hp hs hval hl ho =>
      obtain rfl := hp i hon
      have hlen : (L.done ++ [L.last i]).length = L.done.length + 1 := by simp
      refine ⟨?_, ?_, inside_update h.inside ⟨nofun, fun hf => hf.elim⟩⟩
      · refine .free (fun j => hoff j hp) (by omega) ?_ ?_
        · show s'.value c = init + (L.done ++ [L.last i]).length
          rw [hv, hval, hlen]
          rfl
        · show L.obtained = L.done ++ [L.last i]
          rw [ho, hl]
      · show L.done ++ [L.last i] = List.range' init (L.done ++ [L.last i]).length
        rw [hlen, List.range'_1_concat, ← h.done, hl]

end Steps

/-! ## 5. Every run -/

/-- What is no step of a counter leaves the semaphores, the memory and the ledgers alone. -/
theorem handle_other {s s' : Shared} {a : Act} {u : Unit} (ha : ¬ a.Counts)
    (h : s.handle (.act a) = some (u, s')) : s'.sem = s.sem ∧ s'.shm = s.shm := by
  cases a with
  | p c => exact absurd trivial ha
  | v c => exact absurd trivial ha
  | write c n => exact absurd trivial ha
  | _ =>
      cases h
      exact ⟨rfl, rfl⟩

theorem add_other {a : Act} {u : Unit} (ha : ¬ a.Counts) (c : Counter) (L : Ledger) (i : Nat) :
    L.add c (i, ⟨.act a, u⟩) = L := by
  cases a with
  | p c => exact absurd trivial ha
  | v c => exact absurd trivial ha
  | write c n => exact absurd trivial ha
  | _ => rfl

section Run

variable {init : Counter → Nat} {st st' : Campaign} {i : Nat}

/-- The processes after one of them has gone on. -/
theorem paired_update {ph : Nat → Phase} {ph₁ : Phase} {p : Program Unit}
    (h : ∀ j, Paired (ph j) (st.procs j)) (hp : Paired ph₁ p) (j : Nat) :
    Paired (Function.update ph i ph₁ j) (Function.update st.procs i p j) := by
  by_cases hji : j = i
  · subst hji
    rw [Function.update_self, Function.update_self]
    exact hp
  · rw [Function.update_of_ne hji, Function.update_of_ne hji]
    exact h j

section Counters

variable {ph : Nat → Phase} {s s' : Shared} {L : Counter → Ledger} {u : Unit} {c' : Counter}
  (h : ∀ c, CounterInv (init c) c ph s (L c))

include h

/-- **P** on one counter, and the other one. -/
theorem counters_enter (hi : ph i = .idle) (hs : s.handle (.act (.p c')) = some (u, s')) (c : Counter) :
    CounterInv (init c) c (Function.update ph i (.entered c')) s'
      ((L c).add c (i, ⟨.act (.p c'), u⟩)) := by
  unfold Shared.handle at hs
  dsimp only at hs
  split at hs
  · rename_i hpos
    cases hs
    by_cases hc : c' = c
    · subst hc
      have hadd : (L c').add c' (i, ⟨.act (.p c'), ()⟩) =
          { L c' with inside := Function.update (L c').inside i true } := if_pos rfl
      rw [hadd]
      exact (h c').enter hpos (Function.update_self ..) rfl
    · have hadd : (L c).add c (i, ⟨.act (.p c'), ()⟩) = L c := if_neg hc
      rw [hadd]
      refine (h c).frame (Function.update_of_ne (Ne.symm hc) _ _) rfl (.inr ?_)
      rw [hi]
      exact ⟨id, hc⟩
  · cases hs

theorem counters_obtain (hi : ph i = .entered c') (c : Counter) :
    CounterInv (init c) c (Function.update ph i (.holding c' (s.value c'))) s
      ((L c).add c (i, ⟨.read c', s.value c'⟩)) := by
  by_cases hc : c' = c
  · subst hc
    have hadd : (L c').add c' (i, ⟨.read c', s.value c'⟩) =
        { L c' with
          last := Function.update (L c').last i (s.value c')
          obtained := (L c').obtained ++ [s.value c'] } := if_pos rfl
    rw [hadd]
    exact (h c').obtain hi
  · have hadd : (L c).add c (i, ⟨.read c', s.value c'⟩) = L c := if_neg hc
    rw [hadd]
    refine (h c).frame rfl rfl (.inr ?_)
    rw [hi]
    exact ⟨hc, hc⟩

theorem counters_store {n : Nat} (hi : ph i = .holding c' n)
    (hs : s.handle (.act (.write c' (n + 1))) = some (u, s')) (c : Counter) :
    CounterInv (init c) c (Function.update ph i (.leaving c' n)) s'
      ((L c).add c (i, ⟨.act (.write c' (n + 1)), u⟩)) := by
  obtain ⟨bs, hbs, hs⟩ := Option.map_eq_some_iff.mp hs
  cases hs
  have hadd : (L c).add c (i, ⟨.act (.write c' (n + 1)), ()⟩) = L c := rfl
  rw [hadd]
  by_cases hc : c' = c
  · subst hc
    refine (h c').store hi rfl ?_
    show fromBytes (Function.update s.shm c' bs c') = n + 1
    rw [Function.update_self]
    exact fromBytes_toBytes hbs
  · refine (h c).frame rfl ?_ (.inr ?_)
    · show fromBytes (Function.update s.shm c' bs c) = _
      rw [Function.update_of_ne (Ne.symm hc)]
      rfl
    · rw [hi]
      exact ⟨hc, hc⟩

/-- **V** on one counter, and the other one. -/
theorem counters_leave {n : Nat} (hi : ph i = .leaving c' n)
    (hs : s.handle (.act (.v c')) = some (u, s')) (c : Counter) :
    CounterInv (init c) c (Function.update ph i .idle) s' ((L c).add c (i, ⟨.act (.v c'), u⟩)) := by
  cases hs
  by_cases hc : c' = c
  · subst hc
    have hadd : (L c').add c' (i, ⟨.act (.v c'), ()⟩) =
        { L c' with
          inside := Function.update (L c').inside i false
          done := (L c').done ++ [(L c').last i] } := if_pos rfl
    rw [hadd]
    exact (h c').leave hi (Function.update_self ..) rfl
  · have hadd : (L c).add c (i, ⟨.act (.v c'), ()⟩) = L c := if_neg hc
    rw [hadd]
    refine (h c).frame (Function.update_of_ne (Ne.symm hc) _ _) rfl (.inr ?_)
    rw [hi]
    exact ⟨hc, id⟩

end Counters

/-- **One step of any process keeps the invariant.** -/
theorem Inv.turn (h : Inv init st) (hs : st.turn Shared.handle i = some st') : Inv init st' := by
  obtain ⟨ph, hproc, hcount⟩ := h
  obtain ⟨e, k, r, shared, hop, hhandle, rfl⟩ := Processes.turn_eq_some hs
  have hp := hproc i
  rw [hop] at hp
  -- the new phase is that of the continuation
  suffices hnew : ∃ ph₁, Paired ph₁ (k r) ∧ ∀ c, CounterInv (init c) c (Function.update ph i ph₁) shared
      ((ledger c st.events).add c (i, ⟨e, r⟩)) by
    obtain ⟨ph₁, hk, hall⟩ := hnew
    refine ⟨Function.update ph i ph₁, paired_update hproc hk, fun c => ?_⟩
    rw [ledger_append]
    exact hall c
  generalize hphi : ph i = φ at hp
  cases hp with
  | raise => exact r.elim
  | other _ a _ ha hk =>
      obtain ⟨hsem, hshm⟩ := handle_other ha hhandle
      refine ⟨φ, hk, fun c => ?_⟩
      rw [add_other ha]
      exact (hcount c).frame (congrFun hsem c) (congrArg fromBytes (congrFun hshm c)) (.inl hphi.symm)
  | enter c' _ hk => exact ⟨.entered c', hk, counters_enter hcount hphi hhandle⟩
  | obtain c' _ hk =>
      cases hhandle
      exact ⟨.holding c' (st.shared.value c'), hk _, counters_obtain hcount hphi⟩
  | store c' n _ hk => exact ⟨.leaving c' n, hk, counters_store hcount hphi hhandle⟩
  | leave c' n _ hk => exact ⟨.idle, hk, counters_leave hcount hphi hhandle⟩

theorem inv_start {mNum cNum : Nat} (h : (numbering mNum cNum).init st) : Inv (initial mNum cNum) st := by
  obtain ⟨⟨saved, hnew⟩, hproc, hevents⟩ := h
  refine ⟨fun _ => .idle, hproc, fun c => ?_⟩
  obtain ⟨hsem, hv, -⟩ := ProcManager.new_spec hnew c
  rw [hevents]
  exact ⟨.free (fun _ => id) hsem hv rfl, rfl, fun j => ⟨nofun, fun hf => hf.elim⟩⟩

/-- **Shared numbering loses nothing.** In every run, for each counter: the numbers obtained are pairwise
    distinct; those of the complete pairs are consecutive from the initial value, in the order in which
    the pairs were completed; while no process is inside a pair, the counter is the initial value plus
    their number; and at most one process is between P and V. -/
theorem numbers_consecutive {mNum cNum : Nat} {tr : List (Campaign × Nat × Campaign)}
    (h : (numbering mNum cNum).Trace tr st) (c : Counter) :
    (ledger c st.events).obtained.Nodup ∧
      (ledger c st.events).done =
        List.range' (initial mNum cNum c) (ledger c st.events).done.length ∧
      ((∀ i, (ledger c st.events).inside i = false) →
        st.shared.value c = initial mNum cNum c + (ledger c st.events).done.length) ∧
      ∀ i j, (ledger c st.events).inside i = true → (ledger c st.events).inside j = true → i = j := by
  have hinv : Inv (initial mNum cNum) st :=
    h.inv (P := fun _ _ => True) (fun s hs => inv_start hs) (fun s i s' hI _ hs => hI.turn hs)
      fun _ _ => trivial
  obtain ⟨ph, -, hcount⟩ := hinv
  obtain ⟨hok, hdone, hinside⟩ := hcount c
  have hnodup : (ledger c st.events).done.Nodup := by
    rw [hdone]
    exact List.nodup_range'
  have hnodup' : ((ledger c st.events).done ++
      [initial mNum cNum c + (ledger c st.events).done.length]).Nodup := by
    rw [hdone, List.length_range', ← List.range'_1_concat]
    exact List.nodup_range'
  have hout : (∀ i, (ledger c st.events).inside i = false) → ∀ i, ¬ (ph i).On c := by
    intro hall i hi
    have := (hinside i).mpr hi
    rw [hall i] at this
    cases this
  have hon : ∀ i, ph i = .entered c ∨ (∃ n, ph i = .holding c n) ∨ (∃ n, ph i = .leaving c n) →
      (ph i).On c := by
    rintro i (hi | ⟨n, hi⟩ | ⟨n, hi⟩) <;> rw [hi] <;> rfl
  refine ⟨?_, hdone, fun hall => ?_, fun i j hi hj => ?_⟩
  · cases hok with
    | free _ _ _ ho => rw [ho]; exact hnodup
    | entered _ _ _ _ _ ho => rw [ho]; exact hnodup
    | holding _ _ _ _ _ _ ho => rw [ho]; exact hnodup'
    | leaving _ _ _ _ _ _ ho => rw [ho]; exact hnodup'
  · cases hok with
    | free _ _ hv _ => exact hv
    | entered i hi => exact absurd (hon i (.inl hi)) (hout hall i)
    | holding i hi => exact absurd (hon i (.inr (.inl ⟨_, hi⟩))) (hout hall i)
    | leaving i hi => exact absurd (hon i (.inr (.inr ⟨_, hi⟩))) (hout hall i)
  · have hi' := (hinside i).mp hi
    have hj' := (hinside j).mp hj
    cases hok with
    | free hp => exact absurd hi' (hp i)
    | entered k _ hp => rw [hp i hi', hp j hj']
    | holding k _ hp => rw [hp i hi', hp j hj']
    | leaving k _ hp => rw [hp i hi', hp j hj']

end Run

/-! ## 6. Two processes -/

namespace NumberingDemo

/-- A run that does not match. -/
def mismatching : Iter := { Iter.calm with isMatch := false }

/-- Fuzzing processes with one such run each, on a directory with three reports. -/
def start : Campaign where
  shared := (ProcManager.new 3 5 []).getD ⟨fun _ => 0, fun _ => [], []⟩
  procs := fun i => run (.campaign i) [mismatching]
  events := []

def orders : List Nat := [0, 1, 0, 1, 0, 1, 0, 0, 0, 0, 1, 1, 1, 0, 1, 1]

theorem start_init : (numbering 3 5).init start :=
  ⟨⟨[], rfl⟩, fun i => run_paired (.campaign i) [mismatching], rfl⟩

theorem exec_trace : (numbering 3 5).Trace (exec (Processes.turn Shared.handle) start orders).1
    (exec (Processes.turn Shared.handle) start orders).2 :=
  Machine.exec_trace (f := Processes.turn Shared.handle) (fun _ _ _ h => h) (.start _ start_init) orders

end NumberingDemo

/-- Two fuzzing processes take the numbers 3 and 4. -/
theorem numbers_consecutive_two :
    (ledger .mNum (exec (Processes.turn Shared.handle) NumberingDemo.start
      NumberingDemo.orders).2.events).done = [3, 4] ∧
    (ledger .mNum (exec (Processes.turn Shared.handle) NumberingDemo.start
      NumberingDemo.orders).2.events).obtained.Nodup :=
  ⟨by decide, (numbers_consecutive NumberingDemo.exec_trace .mNum).1⟩

end Difuzz.Fuzzer
