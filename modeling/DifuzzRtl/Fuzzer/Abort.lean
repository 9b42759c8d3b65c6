/-
  File:      DifuzzRtl/Fuzzer/Abort.lean
  Subject:   The end of a campaign in which a child has failed: the signals of `wait_check` (DifuzzRTL.py).

  * `signalsOf` -- the loop of `os.kill`. The number of a free slot, 0, names the parent's own process
    group, and the parent does not survive that signal.
  * `Family` -- the parent and its children, which end with any exit code and in any state.
  * `Slots.calm` -- the same parent, had every child reported NORMAL. Up to the first failure its steps
    are those of `slots`, and the invariant of that system holds.
  * `abort_signals_iff` -- the signals go to the other children exactly if the failure is seen in the batch
    loop, where no slot is free.
-/
import DifuzzRtl.Fuzzer.Slots

namespace Difuzz.Fuzzer

/-! ## 1. The signals -/

/-- Who gets a SIGKILL: one process, or all of the parent's process group, the parent among them. -/
inductive Signal where
  | child (pid : Nat)
  | ownGroup
  deriving DecidableEq, Repr

/-- The loop over the numbers. -/
def signalsOf : List Nat → List Signal
  | [] => []
  | pid :: pids => if pid = 0 then [.ownGroup] else .child pid :: signalsOf pids

theorem signalsOf_pids {pids : List Nat} (h : 0 ∉ pids) : signalsOf pids = pids.map .child := by
  induction pids with
  | nil => rfl
  | cons pid pids ih =>
      rw [List.mem_cons, not_or] at h
      rw [signalsOf, if_neg fun h0 => h.1 h0.symm, ih h.2, List.map_cons]

theorem ownGroup_mem_signalsOf {pids : List Nat} (h : 0 ∈ pids) : .ownGroup ∈ signalsOf pids := by
  induction pids with
  | nil => cases h
  | cons pid pids ih =>
      unfold signalsOf
      split
      · exact List.mem_singleton_self _
      · rename_i hne
        rcases List.mem_cons.mp h with h0 | h
        · exact absurd h0.symm hne
        · exact List.mem_cons_of_mem _ (ih h)

/-! ## 2. Children that fail -/

/-- The parent, what `waitpid` returns with each child that has ended, and the signals that were sent. -/
structure Family where
  slots : Slots
  exitCode : Nat → Nat
  sent : List Signal

/-- The parent is in `waitpid`. -/
def Slots.Waits (s : Slots) : Prop :=
  match s.pc with
  | .wait _ => True
  | .drain => s.numRunning ≠ 0
  | _ => False

instance (s : Slots) : Decidable s.Waits := by
  unfold Slots.Waits
  split <;> infer_instance

namespace Family

/-- What `wait_check` comes to when `waitpid` returns this child. -/
def check (s : Family) (pid : Nat) : WaitResult :=
  waitCheck s.slots.procPidArr s.slots.states pid (s.exitCode pid)

/-- The parent: `exit(-1)` after a child that has failed, and its usual step otherwise. -/
def parentStep (multicore : Nat) (s : Family) (pid : Nat) : Option Family :=
  match s.slots.children.find? fun c => c.pid = pid && c.ended, s.check pid with
  | some c, .abort killed =>
      if s.slots.Waits then
        some
          { s with
            slots := { s.slots with
              pc := .failed, children := s.slots.children.erase c, reaped := s.slots.reaped ++ [c] }
            sent := s.sent ++ signalsOf killed }
      else (s.slots.parentStep multicore pid).map fun t => { s with slots := t }
  | _, _ => (s.slots.parentStep multicore pid).map fun t => { s with slots := t }

/-- A child ends with an exit code; it may have set its state before. -/
def childExit (s : Family) (pid code : Nat) (state : Option ProcState) : Option Family :=
  match s.slots.children.find? fun c => c.pid = pid && !c.ended with
  | none => none
  | some c =>
      some
        { s with
          slots := { s.slots with
            children :=
              s.slots.children.map fun d => if d.pid = pid then { d with ended := true } else d
            states := match state with
              | some st => setState s.slots.states c.procNum st
              | none => s.slots.states }
          exitCode := fun p => if p = pid then code else s.exitCode p }

end Family

inductive FamilyMove where
  | parent (pid : Nat)
  | exit (pid code : Nat) (state : Option ProcState)

def Family.step (multicore : Nat) (s : Family) : FamilyMove → Option Family
  | .parent pid => s.parentStep multicore pid
  | .exit pid code state => s.childExit pid code state

def Family.start (multicore numBatch : Nat) : Family := ⟨.start multicore numBatch, fun _ => 0, []⟩

/-- **The campaign**, with children that end in any order and in any way. -/
def family (multicore numBatch : Nat) : Machine Family FamilyMove where
  init s := 1 ≤ multicore ∧ s = .start multicore numBatch
  step s m s' := s.step multicore m = some s'

/-! ## 3. The campaign before a failure is seen -/

/-- The slots, had every child reported NORMAL. -/
def Slots.calm (multicore : Nat) (s : Slots) : Slots :=
  { s with states := List.replicate multicore .normal }

theorem waitCheck_slot {arr : List Nat} {states : List ProcState} {pid code idx : Nat}
    (h : waitCheck arr states pid code = .slot idx) :
    arr.idxOf? pid = some idx ∧ code = 0 ∧ getState states idx = some .normal := by
  unfold waitCheck at h
  split at h
  · cases h
  · rename_i i hi
    split at h
    · cases h
    · rename_i hcode
      split at h
      · cases h
      · rename_i st hst
        split at h
        · cases h
        · rename_i hnormal
          cases h
          exact ⟨hi, not_not.mp hcode, by rw [hst, not_not.mp hnormal]⟩

theorem waitCheck_abort {arr : List Nat} {states : List ProcState} {pid code : Nat} {killed : List Nat}
    (h : waitCheck arr states pid code = .abort killed) : killed = arr.filter (· ≠ pid) := by
  unfold waitCheck at h
  split at h
  · cases h
  · split at h
    · exact (WaitResult.abort.inj h).symm
    · split at h
      · cases h
      · split at h
        · exact (WaitResult.abort.inj h).symm
        · cases h

section Calm

variable {multicore : Nat} {s t : Slots} {pid : Nat}

theorem Slots.wait_states {next : Pc} (h : s.wait pid next = some t) : t.states = s.states := by
  unfold Slots.wait at h
  split at h
  · cases h
    rfl
  · split at h
    · cases h
    · dsimp only at h
      split at h <;> cases h <;> rfl

/-- The parent only reads the states. -/
theorem Slots.parentStep_states (h : s.parentStep multicore pid = some t) : t.states = s.states := by
  unfold Slots.parentStep at h
  split at h
  · cases h
    rfl
  · split at h
    · cases h
      rfl
    · split at h <;> cases h
      rfl
  · exact wait_states h
  · split at h
    · cases h
      rfl
    · exact wait_states h
  · cases h
  · cases h

/-- A wait that does not fail is the same wait among children that have all reported NORMAL. -/
theorem Slots.wait_calm {next : Pc} (hlen : s.states.length = multicore) (h : s.wait pid next = some t)
    (ht : t.pc ≠ .failed) : (s.calm multicore).wait pid next = some (t.calm multicore) := by
  obtain ⟨pc, arr, n, states, children, reaped⟩ := s
  simp only [Slots.wait, Slots.calm] at h ⊢
  split at h
  · cases h
    exact absurd rfl ht
  · rename_i hne
    split at h
    · cases h
    · rename_i c hc
      split at h
      · rename_i idx hcheck
        obtain ⟨hidx, _, hst⟩ := waitCheck_slot hcheck
        cases h
        refine Eq.trans (if_neg hne) ?_
        have hlt : idx < multicore := hlen ▸ (List.getElem?_eq_some_iff.mp hst).1
        have hcalm : waitCheck arr (List.replicate multicore .normal) pid 0 = .slot idx := by
          rw [waitCheck, hidx]
          simp [getState, hlt]
        rw [hcalm]
      · cases h
        exact absurd rfl ht

/-- **The steps of the parent** up to a failure are those of the calm campaign. -/
theorem Slots.parentStep_calm (hlen : s.states.length = multicore)
    (h : s.parentStep multicore pid = some t) (ht : t.pc ≠ .failed) :
    (s.calm multicore).parentStep multicore pid = some (t.calm multicore) := by
  obtain ⟨pc, arr, n, states, children, reaped⟩ := s
  cases pc with
  | head left =>
      cases left with
      | zero =>
          cases h
          rfl
      | succ left =>
          simp only [Slots.parentStep, Slots.calm] at h ⊢
          split at h
          · cases h
            exact absurd rfl ht
          · rename_i procNum hidx
            split at h
            · cases h
            · rename_i hfresh
              cases h
              exact if_neg hfresh
  | wait left => exact Slots.wait_calm hlen h ht
  | drain =>
      by_cases hzero : n = 0
      · subst hzero
        cases h
        rfl
      · simp only [Slots.parentStep, Slots.calm, if_neg hzero] at h ⊢
        exact (if_neg hzero).trans
          (Slots.wait_calm (s := ⟨.drain, arr, n, states, children, reaped⟩) hlen h ht)
  | removed => cases h
  | failed => cases h

end Calm

/-- **The invariant of the campaign**: until a failure is seen, that of the calm one. -/
structure FamilyInv (multicore total : Nat) (s : Family) : Prop where
  slots : s.slots.pc ≠ .failed → SlotsInv multicore total (s.slots.calm multicore)
  states : s.slots.states.length = multicore
  free : s.slots.pc = .drain → s.slots.numRunning < multicore

section Steps

variable {multicore total : Nat} {s s' : Family}

/-- The final loop is entered with a free slot, and goes on freeing slots. -/
theorem Slots.parentStep_free {s t : Slots} {pid : Nat}
    (hinv : SlotsInv multicore total (s.calm multicore)) (hfree : s.pc = .drain → s.numRunning < multicore)
    (h : s.parentStep multicore pid = some t) : t.pc = .drain → t.numRunning < multicore := by
  obtain ⟨pc, arr, n, states, children, reaped⟩ := s
  -- a wait ends with fewer children, or fails
  have hwait : ∀ next, n ≤ multicore → 0 < n → (⟨pc, arr, n, states, children, reaped⟩ : Slots).wait pid next
      = some t → t.pc = .drain → t.numRunning < multicore := by
    intro next hn hpos h hpc
    simp only [Slots.wait] at h
    split at h
    · cases h
      cases hpc
    · split at h
      · cases h
      · split at h
        · cases h
          show n - 1 < multicore
          omega
        · cases h
          cases hpc
  have hfits := hinv.fits
  have hpos := hinv.pos
  cases pc with
  | head left =>
      cases left with
      | zero =>
          cases h
          exact fun _ => hfits
      | succ left =>
          simp only [Slots.parentStep] at h
          split at h
          · cases h
            exact fun hpc => (nomatch hpc)
          · split at h
            · cases h
            · cases h
              intro hpc
              dsimp only at hpc
              split at hpc <;> cases hpc
  | wait left =>
      have hn : n = multicore := hfits
      exact hwait _ (by omega) (by omega) h
  | drain =>
      have hn : n < multicore := hfree rfl
      simp only [Slots.parentStep] at h
      split at h
      · cases h
        exact fun hpc => (nomatch hpc)
      · exact hwait _ (by omega) (by omega) h
  | removed => cases h
  | failed => cases h

theorem FamilyInv.usual {pid : Nat} {t : Slots} (h : FamilyInv multicore total s)
    (hs : s.slots.parentStep multicore pid = some t) :
    FamilyInv multicore total { s with slots := t } := by
  have hpc : s.slots.pc ≠ .failed := by
    intro hpc
    unfold Slots.parentStep at hs
    rw [hpc] at hs
    cases hs
  have hinv := h.slots hpc
  refine ⟨fun ht => hinv.parentStep (Slots.parentStep_calm h.states hs ht), ?_,
    Slots.parentStep_free hinv h.free hs⟩
  show t.states.length = multicore
  rw [Slots.parentStep_states hs]
  exact h.states

theorem FamilyInv.exit {pid code : Nat} {state : Option ProcState} (h : FamilyInv multicore total s)
    (hs : s.childExit pid code state = some s') : FamilyInv multicore total s' := by
  unfold Family.childExit at hs
  split at hs
  · cases hs
  · rename_i c hc
    cases hs
    refine ⟨fun hpc => ?_, ?_, h.free⟩
    · have hinv := h.slots hpc
      -- the calm campaign sees the child report NORMAL
      obtain ⟨t, ht⟩ : ∃ t, (s.slots.calm multicore).childExit pid = some t := by
        unfold Slots.childExit
        rw [show (s.slots.calm multicore).children = s.slots.children from rfl, hc]
        exact ⟨_, rfl⟩
      have hinv' := hinv.childExit ht
      unfold Slots.childExit at ht
      rw [show (s.slots.calm multicore).children = s.slots.children from rfl, hc] at ht
      cases ht
      exact ⟨hinv'.pos, hinv'.length, rfl, hinv'.occupied, hinv'.running, hinv'.fits, hinv'.forked⟩
    · cases state with
      | none => exact h.states
      | some st =>
          show (setState s.slots.states c.procNum st).length = multicore
          simp [setState, h.states]

/-- **Every step keeps the invariant.** -/
theorem FamilyInv.step {m : FamilyMove} (h : FamilyInv multicore total s)
    (hs : s.step multicore m = some s') : FamilyInv multicore total s' := by
  cases m with
  | exit pid code state => exact h.exit hs
  | parent pid =>
      have husual : ∀ s', (s.slots.parentStep multicore pid).map (fun t => { s with slots := t }) = some s' →
          FamilyInv multicore total s' := by
        intro s' hs
        obtain ⟨t, ht, rfl⟩ := Option.map_eq_some_iff.mp hs
        exact h.usual ht
      simp only [Family.step, Family.parentStep] at hs
      split at hs
      · split at hs
        · cases hs
          exact ⟨fun hne => absurd rfl hne, h.states, fun hd => (nomatch hd)⟩
        · exact husual _ hs
      · exact husual _ hs

end Steps

section Run

variable {multicore numBatch : Nat} {s : Family} {tr : List (Family × FamilyMove × Family)}

theorem family_inv (h : (family multicore numBatch).Trace tr s) :
    FamilyInv multicore (numBatch * multicore) s := by
  refine h.inv (P := fun _ _ => True) (fun s hs => ?_) (fun s m s' hI _ hs => hI.step hs) fun _ _ => trivial
  obtain ⟨hpos, rfl⟩ := hs
  have hslots : SlotsInv multicore (numBatch * multicore) (.start multicore numBatch) :=
    @slots_inv _ _ _ [] (.start _ ⟨hpos, rfl⟩)
  exact ⟨fun _ => hslots, List.length_replicate, fun hpc => (nomatch hpc)⟩

end Run

/-! ## 4. Who is killed -/

/-- The signals go to the other children of a kind, each once, and to nobody else. -/
def KillsExactly (s : Slots) (c : Child) (kind : Child → Bool) (signals : List Signal) : Prop :=
  signals.Perm ((s.children.filter fun d => d ≠ c ∧ kind d).map fun d => .child d.pid)

section Abort

variable {arr : List Nat} {children : List Child}

/-- An array without a free slot holds the children's numbers and nothing else. -/
theorem Occupied.perm_full (h : Occupied arr children) (hfull : 0 ∉ arr) :
    arr.Perm (children.map Child.pid) := by
  have hnodup : arr.Nodup := by
    rw [List.nodup_iff_getElem?_ne_getElem?]
    intro i j hij hj he
    have hi : i < arr.length := Nat.lt_trans hij hj
    have hne : arr[j] ≠ 0 := fun h0 => hfull (h0 ▸ List.getElem_mem hj)
    obtain ⟨c, hc, hci, hcp⟩ := h.held i _ (he.trans (List.getElem?_eq_getElem hj)) hne
    obtain ⟨d, hd, hdj, hdp⟩ := h.held j _ (List.getElem?_eq_getElem hj) hne
    rw [h.eq_of_pid hc hd (hcp.trans hdp.symm)] at hci
    omega
  refine (List.perm_ext_iff_of_nodup hnodup h.pids).mpr fun q => ?_
  rw [List.mem_map]
  constructor
  · intro hq
    obtain ⟨i, hi⟩ := List.mem_iff_getElem?.mp hq
    obtain ⟨c, hc, _, hcp⟩ := h.held i q hi fun h0 => hfull (h0 ▸ hq)
    exact ⟨c, hc, hcp⟩
  · intro hq
    obtain ⟨c, hc, rfl⟩ := hq
    exact List.mem_of_getElem? (h.holds c hc).2

/-- The other children, by their numbers. -/
theorem Occupied.perm_others (h : Occupied arr children) (hfull : 0 ∉ arr) {c : Child} (hc : c ∈ children) :
    (signalsOf (arr.filter (· ≠ c.pid))).Perm
      ((children.filter fun d => d ≠ c).map fun d => .child d.pid) := by
  have hno : 0 ∉ arr.filter (· ≠ c.pid) := fun h0 => hfull (List.mem_filter.mp h0).1
  have hothers : (children.map Child.pid).filter (· ≠ c.pid) =
      (children.filter fun d => d ≠ c).map Child.pid := by
    rw [List.filter_map]
    refine congrArg _ (List.filter_congr fun d hd => ?_)
    refine decide_eq_decide.mpr (not_congr ⟨fun he => h.eq_of_pid hd hc he, fun he => he ▸ rfl⟩)
  rw [signalsOf_pids hno]
  have hperm := ((h.perm_full hfull).filter (· ≠ c.pid)).map Signal.child
  rw [hothers, List.map_map] at hperm
  exact hperm

end Abort

section Claim

variable {multicore numBatch : Nat} {s : Family} {tr : List (Family × FamilyMove × Family)}

/-- In `waitpid`, no slot is free exactly in the batch loop. -/
theorem FamilyInv.full_iff {total : Nat} (h : FamilyInv multicore total s) (hw : s.slots.Waits) :
    0 ∉ s.slots.procPidArr ↔ ∃ left, s.slots.pc = .wait left := by
  have hpc : s.slots.pc ≠ .failed := by
    intro hpc
    unfold Slots.Waits at hw
    rw [hpc] at hw
    exact hw
  have hinv := h.slots hpc
  have hcount : s.slots.procPidArr.countP (· ≠ 0) = s.slots.numRunning :=
    hinv.occupied.count.trans hinv.running.symm
  have hlen : s.slots.procPidArr.length = multicore := hinv.length
  constructor
  · intro hfull
    have hall : s.slots.procPidArr.countP (· ≠ 0) = s.slots.procPidArr.length :=
      List.countP_eq_length.mpr fun p hp => decide_eq_true fun h0 => hfull (h0 ▸ hp)
    unfold Slots.Waits at hw
    split at hw
    · rename_i left hleft
      exact ⟨left, hleft⟩
    · rename_i hdrain
      have := h.free hdrain
      omega
    · exact hw.elim
  · intro hleft h0
    obtain ⟨left, hleft⟩ := hleft
    have hfits := hinv.fits
    rw [show (s.slots.calm multicore).pc = s.slots.pc from rfl, hleft] at hfits
    have hrun : s.slots.numRunning = multicore := hfits
    have hall : s.slots.procPidArr.countP (· ≠ 0) = s.slots.procPidArr.length := by omega
    exact absurd (List.countP_eq_length.mp hall 0 h0) (by decide)

/-- **Who is killed.** In every run, when `wait_check` sees that a child has failed: the signals go to
    exactly the other children that have not been reaped, each once, if the parent is in the batch loop,
    and only then. All of these still run unless one has ended in the meantime. In the final loop the
    parent's own process group is killed. -/
theorem abort_signals_iff (h : (family multicore numBatch).Trace tr s) (hw : s.slots.Waits) {c : Child}
    (hc : c ∈ s.slots.children) {killed : List Nat} (hcheck : s.check c.pid = .abort killed) :
    (KillsExactly s.slots c (fun d => !d.ended) (signalsOf killed) ↔
      (∃ left, s.slots.pc = .wait left) ∧ ∀ d ∈ s.slots.children, d ≠ c → d.ended = false) ∧
    (KillsExactly s.slots c (fun _ => true) (signalsOf killed) ↔ ∃ left, s.slots.pc = .wait left) ∧
    (.ownGroup ∈ signalsOf killed ↔ ¬ ∃ left, s.slots.pc = .wait left) := by
  have hinv := family_inv h
  have hpc : s.slots.pc ≠ .failed := by
    intro hpc
    unfold Slots.Waits at hw
    rw [hpc] at hw
    exact hw
  have hocc : Occupied s.slots.procPidArr s.slots.children := (hinv.slots hpc).occupied
  rw [← hinv.full_iff hw]
  obtain rfl := waitCheck_abort hcheck
  by_cases hfull : 0 ∈ s.slots.procPidArr
  · -- a free slot: the own group is among the signals, and no child is the own group
    have hgroup : .ownGroup ∈ signalsOf (s.slots.procPidArr.filter (· ≠ c.pid)) := by
      refine ownGroup_mem_signalsOf (List.mem_filter.mpr ⟨hfull, decide_eq_true fun h0 => ?_⟩)
      exact (hocc.holds c hc).1 h0.symm
    have hno : ∀ kind, ¬ KillsExactly s.slots c kind
        (signalsOf (s.slots.procPidArr.filter (· ≠ c.pid))) := by
      intro kind hk
      obtain ⟨d, _, he⟩ := List.mem_map.mp (hk.mem_iff.mp hgroup)
      cases he
    exact ⟨⟨fun hk => absurd hk (hno _), fun hr => absurd hfull hr.1⟩,
      ⟨fun hk => absurd hk (hno _), fun hr => absurd hfull hr⟩, ⟨fun _ => not_not.mpr hfull, fun _ => hgroup⟩⟩
  · have hothers := hocc.perm_others hfull hc
    have hall : KillsExactly s.slots c (fun _ => true)
        (signalsOf (s.slots.procPidArr.filter (· ≠ c.pid))) := by
      unfold KillsExactly
      simpa using hothers
    refine ⟨⟨fun hk => ⟨hfull, fun d hd hne => ?_⟩, fun hr => ?_⟩, ⟨fun _ => hfull, fun _ => hall⟩,
      ⟨fun hg => ?_, fun hr => absurd hfull hr⟩⟩
    · -- a signal for each other child leaves none that has ended
      have hmem : Signal.child d.pid ∈ (s.slots.children.filter fun e => e ≠ c ∧ !e.ended).map
          fun e => Signal.child e.pid := by
        refine hk.mem_iff.mp (hothers.mem_iff.mpr (List.mem_map.mpr ⟨d, ?_, rfl⟩))
        exact List.mem_filter.mpr ⟨hd, decide_eq_true hne⟩
      obtain ⟨e, he, hpid⟩ := List.mem_map.mp hmem
      obtain ⟨hes, hrun⟩ := List.mem_filter.mp he
      have heq : e = d := hocc.eq_of_pid hes hd (Signal.child.inj hpid)
      subst heq
      simpa using (of_decide_eq_true hrun).2
    · unfold KillsExactly
      have hfilter : (s.slots.children.filter fun d => d ≠ c ∧ !d.ended) =
          s.slots.children.filter fun d => d ≠ c := by
        refine List.filter_congr fun d hd => decide_eq_decide.mpr ⟨fun hd => hd.1, fun hne => ⟨hne, ?_⟩⟩
        simp [hr.2 d hd hne]
      rw [hfilter]
      exact hothers
    · obtain ⟨d, _, he⟩ := List.mem_map.mp (hothers.mem_iff.mp hg)
      cases he

end Claim

/-- Two children; the first ends with exit code 1 in the batch loop. -/
def abortEarly : List FamilyMove := [.parent 11, .parent 12, .exit 11 1 none]

/-- Two children; the first ends well, and the second one with exit code 1. -/
def abortLate : List FamilyMove :=
  [.parent 11, .parent 12, .exit 11 0 none, .parent 11, .parent 0, .exit 12 1 none]

theorem abort_trace (moves : List FamilyMove) :
    (family 2 1).Trace (exec (Family.step 2) (.start 2 1) moves).1
      (exec (Family.step 2) (.start 2 1) moves).2 := by
  have hstart : (family 2 1).init (.start 2 1) := ⟨by decide, rfl⟩
  exact Machine.exec_trace (f := Family.step 2) (fun _ _ _ h => h) (.start _ hstart) moves

/-- In the batch loop the sibling is killed, and nobody else. -/
theorem abort_signals_early : KillsExactly (exec (Family.step 2) (.start 2 1) abortEarly).2.slots
    ⟨11, 0, true⟩ (fun d => !d.ended) [.child 12] :=
  (@abort_signals_iff 2 1 _ _ (abort_trace abortEarly) (by decide) ⟨11, 0, true⟩ (by decide) [12]
    (by decide)).1.mpr ⟨⟨0, by decide⟩, by decide⟩

/-- **In the final loop** the parent kills its own process group, though no other child runs. -/
theorem abort_kills_parent : ∃ tr s, (family 2 1).Trace tr s ∧ s.slots.Waits ∧
    s.slots.children = [⟨12, 1, true⟩] ∧ s.check 12 = .abort [0] ∧ signalsOf [0] = [.ownGroup] ∧
    ¬ KillsExactly s.slots ⟨12, 1, true⟩ (fun d => !d.ended) (signalsOf [0]) := by
  refine ⟨_, _, abort_trace abortLate, by decide, by decide, by decide, by decide, fun hk => ?_⟩
  exact absurd (List.Perm.length_eq hk) (by decide)

end Difuzz.Fuzzer
