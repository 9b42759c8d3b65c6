/-
  File:      DifuzzRtl/Fuzzer/Slots.lean
  Subject:   The parent of a campaign: the batch loop and the final wait loop (DifuzzRTL.py).

  * `Slots` -- the variables of the parent and its children: those that are alive or wait to be reaped, and
    those that have been reaped.
  * `parentStep` -- the next step of the parent; the system chooses the number of a new process, and which
    of the ended ones `waitpid` returns. `childExit` -- a child ends, in state NORMAL.
  * `SlotsInv` -- the invariant: the non-zero entries of `proc_pid_arr` are the children, each in its slot.
  * `slots_never_shared` -- no slot is shared or leaked, in every run.
-/
import Mathlib.Data.List.GetD
import Mathlib.Data.List.Nodup
import DifuzzRtl.Lib.Runs
import DifuzzRtl.Fuzzer.Manager

namespace Difuzz.Fuzzer

/-! ## 1. The parent and its children -/

structure Child where
  pid : Nat
  procNum : Nat
  ended : Bool
  deriving DecidableEq, Repr

/-- Where the parent is: at the head of the batch loop or in its `wait_check`, with so many rounds left
    after it; in the final loop; at `manager.remove()`. An exception, or `exit(-1)`, is a failure. -/
inductive Pc where
  | head (left : Nat)
  | wait (left : Nat)
  | drain
  | removed
  | failed
  deriving DecidableEq, Repr

structure Slots where
  pc : Pc
  procPidArr : List Nat
  numRunning : Nat
  states : List ProcState
  children : List Child
  reaped : List Child

/-- `wait_check`, and the slot is free again. `waitpid` raises if there are no children; it returns only
    a child that has ended. -/
def Slots.wait (s : Slots) (endPid : Nat) (next : Pc) : Option Slots :=
  if s.children = [] then some { s with pc := .failed }
  else
    match s.children.find? fun c => c.pid = endPid && c.ended with
    | none => none
    | some c =>
        let s := { s with children := s.children.erase c, reaped := s.reaped ++ [c] }
        match waitCheck s.procPidArr s.states endPid 0 with
        | .slot idx =>
            some { s with procPidArr := s.procPidArr.set idx 0, numRunning := s.numRunning - 1, pc := next }
        | _ => some { s with pc := .failed }

/-- **The parent.** A new process has a number that is not zero and not that of another child. -/
def Slots.parentStep (multicore : Nat) (s : Slots) (pid : Nat) : Option Slots :=
  match s.pc with
  | .head 0 => some { s with pc := .drain }
  | .head (left + 1) =>
      match s.procPidArr.idxOf? 0 with
      | none => some { s with pc := .failed }
      | some procNum =>
          if pid = 0 ∨ pid ∈ s.children.map Child.pid then none
          else
            some
              { s with
                procPidArr := s.procPidArr.set procNum pid
                numRunning := s.numRunning + 1
                children := s.children ++ [⟨pid, procNum, false⟩]
                pc := if s.numRunning + 1 = multicore then .wait left else .head left }
  | .wait left => s.wait pid (.head left)
  | .drain => if s.numRunning = 0 then some { s with pc := .removed } else s.wait pid .drain
  | .removed | .failed => none

/-- A child reports NORMAL and ends with exit code 0. -/
def Slots.childExit (s : Slots) (pid : Nat) : Option Slots :=
  match s.children.find? fun c => c.pid = pid && !c.ended with
  | none => none
  | some c =>
      some
        { s with
          children := s.children.map fun d => if d.pid = pid then { d with ended := true } else d
          states := setState s.states c.procNum .normal }

/-- The parent has a turn, or a child ends. -/
inductive SlotMove where
  | parent (pid : Nat)
  | exit (pid : Nat)

def Slots.step (multicore : Nat) (s : Slots) : SlotMove → Option Slots
  | .parent pid => s.parentStep multicore pid
  | .exit pid => s.childExit pid

/-- The parent before the batch loop. -/
def Slots.start (multicore numBatch : Nat) : Slots where
  pc := .head (numBatch * multicore)
  procPidArr := List.replicate multicore 0
  numRunning := 0
  states := List.replicate multicore .normal
  children := []
  reaped := []

/-- **The campaign of the parent**, with any order in which the children end. -/
def slots (multicore numBatch : Nat) : Machine Slots SlotMove where
  init s := 1 ≤ multicore ∧ s = .start multicore numBatch
  step s m s' := s.step multicore m = some s'

/-! ## 2. The invariant -/

/-- The rounds of the batch loop that are left. -/
def Pc.left : Pc → Nat
  | .head left | .wait left => left
  | _ => 0

/-- How many children run where. -/
def Pc.Fits (multicore numRunning : Nat) : Pc → Prop
  | .head _ => numRunning < multicore
  | .wait _ => numRunning = multicore
  | .drain => numRunning ≤ multicore
  | .removed => numRunning = 0
  | .failed => False

/-- The array holds the children, each in its slot, and nothing else. -/
structure Occupied (arr : List Nat) (children : List Child) : Prop where
  holds : ∀ c ∈ children, c.pid ≠ 0 ∧ arr[c.procNum]? = some c.pid
  held : ∀ idx pid, arr[idx]? = some pid → pid ≠ 0 → ∃ c ∈ children, c.procNum = idx ∧ c.pid = pid
  pids : (children.map Child.pid).Nodup
  count : arr.countP (· ≠ 0) = children.length

/-- **The invariant of the parent.** -/
structure SlotsInv (multicore total : Nat) (s : Slots) : Prop where
  pos : 1 ≤ multicore
  length : s.procPidArr.length = multicore
  states : s.states = List.replicate multicore .normal
  occupied : Occupied s.procPidArr s.children
  running : s.numRunning = s.children.length
  fits : s.pc.Fits multicore s.numRunning
  forked : s.reaped.length + s.children.length + s.pc.left = total

section Occupied

variable {arr : List Nat} {children : List Child}

theorem Occupied.eq_of_pid (h : Occupied arr children) {c d : Child} (hc : c ∈ children) (hd : d ∈ children)
    (hpid : c.pid = d.pid) : c = d := List.inj_on_of_nodup_map h.pids hc hd hpid

/-- No two children have the same slot. -/
theorem Occupied.eq_of_procNum (h : Occupied arr children) {c d : Child} (hc : c ∈ children)
    (hd : d ∈ children) (hnum : c.procNum = d.procNum) : c = d := by
  have hc' := (h.holds c hc).2
  rw [hnum, (h.holds d hd).2] at hc'
  exact h.eq_of_pid hc hd (Option.some.inj hc').symm

/-- `index` of an element that is there. -/
theorem idxOf?_of_mem {a : Nat} (h : a ∈ arr) : ∃ idx, arr.idxOf? a = some idx ∧ arr[idx]? = some a := by
  obtain ⟨idx, hidx⟩ := Option.isSome_iff_exists.mp (List.isSome_idxOf?.mpr h)
  obtain ⟨hlt, hval, -⟩ := List.idxOf?_eq_some_iff.mp hidx
  exact ⟨idx, hidx, List.getElem?_eq_some_iff.mpr ⟨hlt, hval⟩⟩

/-- **`index(0)` succeeds** as long as a slot is free. -/
theorem Occupied.idxOf?_zero (h : Occupied arr children) (hlt : children.length < arr.length) :
    ∃ idx, arr.idxOf? 0 = some idx ∧ arr[idx]? = some 0 := by
  have hmem : (0 : Nat) ∈ arr := by
    by_contra hno
    have hall : arr.countP (· ≠ 0) = arr.length :=
      List.countP_eq_length.mpr fun p hp => decide_eq_true fun h0 => hno (h0 ▸ hp)
    rw [h.count] at hall
    omega
  exact idxOf?_of_mem hmem

/-- **`index(end_pid)` succeeds** and finds the slot of the child. -/
theorem Occupied.idxOf?_pid (h : Occupied arr children) {c : Child} (hc : c ∈ children) :
    arr.idxOf? c.pid = some c.procNum := by
  obtain ⟨hne, hget⟩ := h.holds c hc
  obtain ⟨idx, hidx, hval⟩ := idxOf?_of_mem (List.mem_of_getElem? hget)
  obtain ⟨d, hd, hnum, hpid⟩ := h.held _ _ hval hne
  rw [hidx, ← hnum, h.eq_of_pid hd hc hpid]

/-- A free slot is taken by a new process. -/
theorem Occupied.fork (h : Occupied arr children) {idx pid : Nat} (hidx : arr[idx]? = some 0)
    (hpid : pid ≠ 0) (hnew : pid ∉ children.map Child.pid) :
    Occupied (arr.set idx pid) (children ++ [⟨pid, idx, false⟩]) := by
  obtain ⟨hlt, hzero⟩ := List.getElem?_eq_some_iff.mp hidx
  refine ⟨fun c hc => ?_, fun j q hj hq => ?_, ?_, ?_⟩
  · rcases List.mem_append.mp hc with hc | hc
    · obtain ⟨hne, hget⟩ := h.holds c hc
      refine ⟨hne, ?_⟩
      rw [List.getElem?_set_ne, hget]
      intro hi
      rw [← hi, hidx] at hget
      exact hne (Option.some.inj hget).symm
    · rw [List.mem_singleton.mp hc]
      exact ⟨hpid, List.getElem?_set_self hlt⟩
  · by_cases hi : idx = j
    · subst hi
      rw [List.getElem?_set_self hlt] at hj
      exact ⟨_, List.mem_append_right _ (List.mem_singleton_self _), rfl, Option.some.inj hj⟩
    · rw [List.getElem?_set_ne hi] at hj
      obtain ⟨c, hc, hcj⟩ := h.held j q hj hq
      exact ⟨c, List.mem_append_left _ hc, hcj⟩
  · rw [List.map_append]
    refine List.nodup_append.mpr ⟨h.pids, List.nodup_singleton _, fun a ha b hb hab => hnew ?_⟩
    rw [hab, List.mem_singleton.mp hb] at ha
    exact ha
  · rw [List.countP_set hlt, hzero, h.count, List.length_append]
    simp [hpid]

/-- A child is reaped, and its slot is free. -/
theorem Occupied.reap (h : Occupied arr children) {c : Child} (hc : c ∈ children) :
    Occupied (arr.set c.procNum 0) (children.erase c) := by
  obtain ⟨hne, hget⟩ := h.holds c hc
  obtain ⟨hlt, hval⟩ := List.getElem?_eq_some_iff.mp hget
  have hnodup : children.Nodup := .of_map _ h.pids
  refine ⟨fun d hd => ?_, fun j q hj hq => ?_, ?_, ?_⟩
  · obtain ⟨hdc, hd⟩ := hnodup.mem_erase_iff.mp hd
    obtain ⟨hdne, hdget⟩ := h.holds d hd
    refine ⟨hdne, ?_⟩
    rw [List.getElem?_set_ne, hdget]
    exact fun hnum => hdc (h.eq_of_procNum hd hc hnum.symm)
  · by_cases hi : c.procNum = j
    · subst hi
      rw [List.getElem?_set_self hlt] at hj
      exact absurd (Option.some.inj hj).symm hq
    · rw [List.getElem?_set_ne hi] at hj
      obtain ⟨d, hd, hnum, hpid⟩ := h.held j q hj hq
      exact ⟨d, hnodup.mem_erase_iff.mpr ⟨fun hdc => hi (hdc ▸ hnum), hd⟩, hnum, hpid⟩
  · exact h.pids.sublist (List.erase_sublist.map _)
  · rw [List.countP_set hlt, hval, h.count, List.length_erase_of_mem hc]
    simp [hne]

/-- A child that ends keeps its slot. -/
theorem Occupied.exit (h : Occupied arr children) (pid : Nat) :
    Occupied arr (children.map fun d => if d.pid = pid then { d with ended := true } else d) := by
  have hkeep : ∀ d : Child, (if d.pid = pid then { d with ended := true } else d).pid = d.pid ∧
      (if d.pid = pid then { d with ended := true } else d).procNum = d.procNum := by
    intro d
    split <;> exact ⟨rfl, rfl⟩
  refine ⟨fun c hc => ?_, fun j q hj hq => ?_, ?_, ?_⟩
  · obtain ⟨d, hd, rfl⟩ := List.mem_map.mp hc
    rw [(hkeep d).1, (hkeep d).2]
    exact h.holds d hd
  · obtain ⟨d, hd, hnum, hpid⟩ := h.held j q hj hq
    exact ⟨_, List.mem_map_of_mem hd, (hkeep d).2.trans hnum, (hkeep d).1.trans hpid⟩
  · rw [List.map_map]
    have heq : (Child.pid ∘ fun d => if d.pid = pid then { d with ended := true } else d) = Child.pid :=
      funext fun d => (hkeep d).1
    rw [heq]
    exact h.pids
  · rw [List.length_map]
    exact h.count

end Occupied

/-! ## 3. Steps -/

section Steps

variable {multicore total : Nat} {s s' : Slots}

/-- **The parent waits**: the child that is returned is in its slot, and has reported NORMAL. -/
theorem SlotsInv.wait {endPid : Nat} (h : SlotsInv multicore total s) (next : Pc)
    (hpos : 0 < s.numRunning) (hnext : ∀ n, n < multicore → next.Fits multicore n)
    (hleft : next.left = s.pc.left) (hle : s.numRunning ≤ multicore)
    (hs : s.wait endPid next = some s') : SlotsInv multicore total s' := by
  have hrun := h.running
  have hsome : s.children ≠ [] := by
    intro hnil
    rw [hnil] at hrun
    exact absurd hrun (by simp; omega)
  unfold Slots.wait at hs
  rw [if_neg hsome] at hs
  split at hs
  · cases hs
  · rename_i c hfind
    have hc := List.mem_of_find?_eq_some hfind
    have hpid : c.pid = endPid := by
      have := List.find?_some hfind
      simp only [Bool.and_eq_true, decide_eq_true_eq] at this
      exact this.1
    have hlt : c.procNum < multicore := by
      rw [← h.length]
      exact (List.getElem?_eq_some_iff.mp (h.occupied.holds c hc).2).1
    have hcheck : waitCheck s.procPidArr s.states endPid 0 = .slot c.procNum := by
      have hstate : getState s.states c.procNum = some .normal := by
        rw [h.states, getState, List.getElem?_replicate, if_pos hlt]
      rw [waitCheck, ← hpid, h.occupied.idxOf?_pid hc]
      dsimp only
      rw [hstate]
      rfl
    dsimp only at hs
    rw [hcheck] at hs
    cases hs
    have hlen : (s.children.erase c).length = s.children.length - 1 := List.length_erase_of_mem hc
    have hfree : s.numRunning - 1 < multicore := by omega
    refine ⟨h.pos, ?_, h.states, h.occupied.reap hc, ?_, hnext _ hfree, ?_⟩
    · show (s.procPidArr.set c.procNum 0).length = multicore
      rw [List.length_set]
      exact h.length
    · show s.numRunning - 1 = (s.children.erase c).length
      omega
    · show (s.reaped ++ [c]).length + (s.children.erase c).length + next.left = total
      have hforked := h.forked
      rw [List.length_append, List.length_singleton]
      omega

/-- **Every step of the parent keeps the invariant.** -/
theorem SlotsInv.parentStep {pid : Nat} (h : SlotsInv multicore total s)
    (hs : s.parentStep multicore pid = some s') : SlotsInv multicore total s' := by
  have hfits := h.fits
  have hforked := h.forked
  unfold Slots.parentStep at hs
  split at hs
  · rename_i hpc
    cases hs
    rw [hpc] at hfits hforked
    exact ⟨h.pos, h.length, h.states, h.occupied, h.running, Nat.le_of_lt hfits, hforked⟩
  · rename_i left hpc
    rw [hpc] at hfits hforked
    have hfits : s.numRunning < multicore := hfits
    obtain ⟨idx, hidx, hzero⟩ := h.occupied.idxOf?_zero (by rw [h.length, ← h.running]; exact hfits)
    rw [hidx] at hs
    dsimp only at hs
    split at hs
    · cases hs
    · rename_i hfresh
      rw [not_or] at hfresh
      cases hs
      have hrun := h.running
      refine ⟨h.pos, ?_, h.states, h.occupied.fork hzero hfresh.1 hfresh.2, ?_, ?_, ?_⟩
      · show (s.procPidArr.set idx pid).length = multicore
        rw [List.length_set]
        exact h.length
      · show s.numRunning + 1 = (s.children ++ [_]).length
        rw [List.length_append, List.length_singleton, hrun]
      · show (if s.numRunning + 1 = multicore then Pc.wait left else Pc.head left).Fits multicore
          (s.numRunning + 1)
        split
        · assumption
        · rename_i hne
          show s.numRunning + 1 < multicore
          omega
      · have hleft : (if s.numRunning + 1 = multicore then Pc.wait left else Pc.head left).left = left := by
          split <;> rfl
        show s.reaped.length + (s.children ++ [_]).length + Pc.left (ite ..) = total
        rw [hleft, List.length_append, List.length_singleton]
        have : s.reaped.length + s.children.length + (left + 1) = total := hforked
        omega
  · rename_i left hpc
    rw [hpc] at hfits
    have hfits : s.numRunning = multicore := hfits
    have hpos := h.pos
    exact h.wait (.head left) (by omega) (fun n hn => hn) (by rw [hpc]; rfl) (by omega) hs
  · rename_i hpc
    rw [hpc] at hfits hforked
    split at hs
    · rename_i hzero
      cases hs
      exact ⟨h.pos, h.length, h.states, h.occupied, h.running, hzero, hforked⟩
    · exact h.wait .drain (by omega) (fun n hn => Nat.le_of_lt hn) (by rw [hpc]) hfits hs
  · cases hs
  · cases hs

/-- **A child that ends keeps the invariant.** -/
theorem SlotsInv.childExit {pid : Nat} (h : SlotsInv multicore total s)
    (hs : s.childExit pid = some s') : SlotsInv multicore total s' := by
  unfold Slots.childExit at hs
  split at hs
  · cases hs
  · rename_i c _
    cases hs
    have hlen : (s.children.map fun d => if d.pid = pid then { d with ended := true } else d).length =
        s.children.length := List.length_map _
    refine ⟨h.pos, h.length, ?_, h.occupied.exit pid, h.running.trans hlen.symm, h.fits, ?_⟩
    · show setState s.states c.procNum .normal = _
      rw [h.states]
      refine List.eq_replicate_iff.mpr ⟨by simp [setState], fun st hst => ?_⟩
      obtain ⟨i, hi, rfl⟩ := List.mem_map.mp hst
      rw [List.mem_range, List.length_replicate] at hi
      rw [List.getD_replicate _ hi, ite_self]
    · show s.reaped.length + List.length (List.map _ _) + s.pc.left = total
      rw [List.length_map]
      exact h.forked

end Steps

/-! ## 4. Every run -/

section Run

variable {multicore numBatch : Nat} {s : Slots} {tr : List (Slots × SlotMove × Slots)}

theorem slots_inv (h : (slots multicore numBatch).Trace tr s) :
    SlotsInv multicore (numBatch * multicore) s := by
  refine h.inv (P := fun _ _ => True) (fun s hs => ?_) (fun s m s' hI _ hs => ?_) fun _ _ => trivial
  · obtain ⟨hpos, rfl⟩ := hs
    refine ⟨hpos, List.length_replicate, rfl, ⟨nofun, fun idx pid hidx hpid => ?_, List.nodup_nil, ?_⟩, rfl,
      hpos, ?_⟩
    · exact absurd (List.eq_of_mem_replicate (List.mem_of_getElem? hidx)) hpid
    · show (List.replicate multicore 0).countP (· ≠ 0) = 0
      simp
    · show 0 + 0 + numBatch * multicore = _
      omega
  · cases m with
    | parent pid => exact hI.parentStep hs
    | exit pid => exact hI.childExit hs

/-- **Slots are never shared or leaked.** In every run, whatever the order in which the children end:
    `num_running` is the number of non-zero entries of `proc_pid_arr` and of the children that have not been
    reaped, and at most `multicore`; the parent does not fail; no two of these children have the same slot;
    and at `manager.remove()` all children that were forked have been reaped. -/
theorem slots_never_shared (h : (slots multicore numBatch).Trace tr s) :
    s.numRunning = s.procPidArr.countP (· ≠ 0) ∧ s.numRunning = s.children.length ∧
      s.numRunning ≤ multicore ∧ s.pc ≠ .failed ∧
      (∀ c ∈ s.children, ∀ d ∈ s.children, c.procNum = d.procNum → c = d) ∧
      (s.pc = .removed → s.children = [] ∧ s.reaped.length = numBatch * multicore) := by
  have hinv := slots_inv h
  have hrun := hinv.running
  have hfits := hinv.fits
  refine ⟨hrun.trans hinv.occupied.count.symm, hrun, ?_, fun hpc => ?_,
    fun c hc d hd hnum => hinv.occupied.eq_of_procNum hc hd hnum, fun hpc => ?_⟩
  · cases hpc : s.pc <;> rw [hpc] at hfits
    · exact Nat.le_of_lt hfits
    · exact Nat.le_of_eq hfits
    · exact hfits
    · exact Nat.le_trans (Nat.le_of_eq hfits) (Nat.zero_le _)
    · exact hfits.elim
  · rw [hpc] at hfits
    exact hfits
  · rw [hpc] at hfits
    have hzero : s.children.length = 0 := hrun.symm.trans hfits
    have hforked := hinv.forked
    rw [hpc, hzero] at hforked
    exact ⟨List.length_eq_zero_iff.mp hzero, hforked⟩

end Run

/-- Two slots and two batches. -/
def slotsDemo : List SlotMove :=
  [.parent 11, .parent 12, .exit 12, .parent 12, .parent 13, .exit 11, .exit 13, .parent 13, .parent 14,
    .exit 14, .parent 11, .parent 0, .parent 14, .parent 0]

theorem slotsDemo_trace : (slots 2 2).Trace (exec (Slots.step 2) (.start 2 2) slotsDemo).1
    (exec (Slots.step 2) (.start 2 2) slotsDemo).2 := by
  have hstart : (slots 2 2).init (.start 2 2) := ⟨by decide, rfl⟩
  exact Machine.exec_trace (f := Slots.step 2) (fun _ _ _ h => h) (.start _ hstart) slotsDemo

/-- The parent gets to the end, and has reaped all four children. -/
theorem slots_never_shared_two : (exec (Slots.step 2) (.start 2 2) slotsDemo).2.pc = .removed ∧
    (exec (Slots.step 2) (.start 2 2) slotsDemo).2.children = [] ∧
    (exec (Slots.step 2) (.start 2 2) slotsDemo).2.reaped.length = 2 * 2 :=
  ⟨by decide, (slots_never_shared slotsDemo_trace).2.2.2.2.2 (by decide)⟩

end Difuzz.Fuzzer
