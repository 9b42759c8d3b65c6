/-
  File:      DifuzzRtl/Micro/MemCtrl.lean
  Subject:   The memory controller with a coverage map written by hand
             (src/micro/verilog/mem_ctrl_v3_reg.v).

  Three state machines serve the memories; a register holds their states, and a map of one bit for each
  of its values says which of them were seen. The map is set by a nonblocking assignment and cleared by
  blocking ones: when a new state is seen while `meta_reset` is high, its bit is set after the map was
  cleared, and the sum that was cleared with it misses one.

  * `coverBlock`, `machineBlock` -- the two `always` blocks; `cycle` -- a clock edge.
  * `cover_cycle` -- what an edge makes of the map and the sum, in either order of the blocks.
  * `ClearsNew` -- a new state is seen while the map is cleared.
  * `covsum_counts_iff` -- the sum counts the map at every edge of a run exactly if this never happens.
-/
import Mathlib.Data.Fintype.Card
import Mathlib.Data.Fintype.Fin
import DifuzzRtl.Lib.Scheduling

namespace Difuzz.Micro

open Scheduling

/-! ## 1. The module -/

structure Inputs where
  reset : Bool
  metaReset : Bool
  sdramValid : Bool
  sdramDataI : BitVec 2
  flashValid : Bool
  flashDataI : BitVec 4
  romValid : Bool
  romDataI : BitVec 1

/-- The state machines and their data. -/
structure Machines where
  stateSdram : BitVec 3
  stateFlash : BitVec 3
  stateRom : BitVec 3
  dataSdram : BitVec 4
  dataFlash : BitVec 4
  dataRom : BitVec 4

/-- What the instrumentation keeps. -/
structure Cover where
  covmap : Fin (2 ^ 9) → Bool
  regState : BitVec 9
  covsum : BitVec 9

structure MemCtrl where
  machines : Machines
  cover : Cover

/-- What the `initial` block does; the other registers have any value. -/
structure Initial (s : MemCtrl) : Prop where
  covmap : ∀ i, s.cover.covmap i = false
  covsum : s.cover.covsum = 0

namespace MemCtrl

def setRegState (v : BitVec 9) (s : MemCtrl) : MemCtrl := { s with cover := { s.cover with regState := v } }

def setCovsum (v : BitVec 9) (s : MemCtrl) : MemCtrl := { s with cover := { s.cover with covsum := v } }

def setCovmap (i : Fin (2 ^ 9)) (b : Bool) (s : MemCtrl) : MemCtrl :=
  { s with cover := { s.cover with covmap := fun j => if j = i then b else s.cover.covmap j } }

def setSdram (v : BitVec 3) (s : MemCtrl) : MemCtrl :=
  { s with machines := { s.machines with stateSdram := v } }

def setFlash (v : BitVec 3) (s : MemCtrl) : MemCtrl :=
  { s with machines := { s.machines with stateFlash := v } }

def setRom (v : BitVec 3) (s : MemCtrl) : MemCtrl := { s with machines := { s.machines with stateRom := v } }

def setDataSdram (v : BitVec 4) (s : MemCtrl) : MemCtrl :=
  { s with machines := { s.machines with dataSdram := v } }

def setDataFlash (v : BitVec 4) (s : MemCtrl) : MemCtrl :=
  { s with machines := { s.machines with dataFlash := v } }

def setDataRom (v : BitVec 4) (s : MemCtrl) : MemCtrl :=
  { s with machines := { s.machines with dataRom := v } }

end MemCtrl

open MemCtrl

/-- The states of the three machines: `READY`, `PENDING1` to `PENDING4`, and `BUSY`. -/
def ready : BitVec 3 := 0

def pending₁ : BitVec 3 := 1

def pending₂ : BitVec 3 := 2

def pending₃ : BitVec 3 := 3

def pending₄ : BitVec 3 := 4

def busy : BitVec 3 := 5

/-- The loop that clears the map, one bit after the other. -/
def clearLoop : Block MemCtrl Unit := (List.finRange (2 ^ 9)).forM fun j => assign (setCovmap j false)

/-- The block of the coverage map. -/
def coverBlock (i : Inputs) : Block MemCtrl Unit := do
  let s ← now
  schedule (setRegState (s.machines.stateFlash ++ s.machines.stateSdram ++ s.machines.stateRom))
  if s.cover.covmap s.cover.regState.toFin = false then do
    schedule (setCovsum (s.cover.covsum + 1))
    schedule (setCovmap s.cover.regState.toFin true)
  if i.metaReset then do
    schedule (setCovsum 0)
    clearLoop

/-- The next state when the input is valid; without it the machine goes back. -/
def advance (set : BitVec 3 → MemCtrl → MemCtrl) (valid : Bool) (next : BitVec 3) : Block MemCtrl Unit :=
  if valid then schedule (set next) else schedule (set ready)

def sdramBlock (i : Inputs) : Block MemCtrl Unit := do
  let s ← now
  let m := s.machines
  if m.stateSdram = ready then do
    if i.sdramValid then do
      schedule (setSdram pending₁)
      schedule (setDataSdram ((0 : BitVec 2) ++ i.sdramDataI))
  else if m.stateSdram = pending₁ then do
    if i.sdramValid then do
      schedule (setSdram pending₂)
      schedule (setDataSdram ((i.sdramDataI ++ (0 : BitVec 2)) ||| m.dataSdram))
    else schedule (setSdram ready)
  else if m.stateSdram = pending₂ then advance setSdram i.sdramValid pending₃
  else if m.stateSdram = pending₃ then advance setSdram i.sdramValid pending₄
  else if m.stateSdram = pending₄ then advance setSdram i.sdramValid busy
  else if m.stateSdram = busy then schedule (setSdram ready)

def flashBlock (i : Inputs) : Block MemCtrl Unit := do
  let s ← now
  let m := s.machines
  if m.stateFlash = ready then do
    if i.flashValid then do
      schedule (setFlash pending₁)
      schedule (setDataFlash i.flashDataI)
    else schedule (setFlash ready)
  else if m.stateFlash = pending₁ then advance setFlash i.flashValid pending₂
  else if m.stateFlash = pending₂ then advance setFlash i.flashValid pending₃
  else if m.stateFlash = pending₃ then advance setFlash i.flashValid pending₄
  else if m.stateFlash = pending₄ then advance setFlash i.flashValid busy
  else schedule (setFlash ready)

def romBlock (i : Inputs) : Block MemCtrl Unit := do
  let s ← now
  let m := s.machines
  if m.stateRom = ready then do
    if i.romValid then do
      schedule (setRom pending₁)
      schedule (setDataRom ((0 : BitVec 3) ++ i.romDataI))
    else schedule (setRom ready)
  else if m.stateRom = pending₁ then do
    if i.romValid then do
      schedule (setRom pending₂)
      schedule (setDataRom (((0 : BitVec 2) ++ i.romDataI ++ (0 : BitVec 1)) ||| m.dataRom))
    else schedule (setRom ready)
  else if m.stateRom = pending₂ then do
    if i.romValid then do
      schedule (setRom pending₃)
      schedule (setDataRom (((0 : BitVec 1) ++ i.romDataI ++ (0 : BitVec 2)) ||| m.dataRom))
    else schedule (setRom ready)
  else if m.stateRom = pending₃ then advance setRom i.romValid pending₄
  else if m.stateRom = pending₄ then advance setRom i.romValid busy
  else schedule (setRom ready)

/-- The block of the state machines. -/
def machineBlock (i : Inputs) : Block MemCtrl Unit := do
  if i.reset then do
    schedule (setSdram ready)
    schedule (setFlash ready)
    schedule (setRom ready)
    schedule (setDataSdram 0)
    schedule (setDataFlash 0)
    schedule (setDataRom 0)
  else do
    sdramBlock i
    flashBlock i
    romBlock i

/-- A clock edge; the simulator chooses the order of the two blocks. -/
def cycle (coverFirst : Bool) (i : Inputs) (s : MemCtrl) : MemCtrl :=
  edge (if coverFirst then [coverBlock i, machineBlock i] else [machineBlock i, coverBlock i]) s

/-! ## 2. What an edge makes of the map -/

/-- A block that only queues updates of the machines. -/
def Silent (b : Block MemCtrl Unit) : Prop :=
  ∀ a, ∃ us, b a = ((), ⟨a.now, a.later ++ us⟩) ∧ ∀ u ∈ us, ∀ s, (u s).cover = s.cover

namespace Silent

theorem schedule {f : MemCtrl → MemCtrl} (h : ∀ s, (f s).cover = s.cover) : Silent (schedule f) :=
  fun _ => ⟨[f], rfl, fun u hu s => by rw [List.mem_singleton.mp hu, h]⟩

theorem skip : Silent (pure ()) := fun a => ⟨[], by rw [List.append_nil]; rfl, fun u hu => (nomatch hu)⟩

theorem seq {b c : Block MemCtrl Unit} (hb : Silent b) (hc : Silent c) : Silent (do b; c) := by
  intro a
  obtain ⟨us, hus, hu⟩ := hb a
  obtain ⟨vs, hvs, hv⟩ := hc ⟨a.now, a.later ++ us⟩
  refine ⟨us ++ vs, ?_, fun u h => (List.mem_append.mp h).elim (hu u) (hv u)⟩
  show c (b a).2 = _
  rw [hus, hvs, List.append_assoc]

theorem ite {p : Prop} [Decidable p] {b c : Block MemCtrl Unit} (hb : Silent b) (hc : Silent c) :
    Silent (if p then b else c) := by
  split
  · exact hb
  · exact hc

theorem reads {b : MemCtrl → Block MemCtrl Unit} (h : ∀ s, Silent (b s)) : Silent (do b (← now)) :=
  fun a => h a.now a

theorem advance {set : BitVec 3 → MemCtrl → MemCtrl} (h : ∀ v s, (set v s).cover = s.cover) (valid : Bool)
    (next : BitVec 3) : Silent (advance set valid next) :=
  ite (schedule (h _)) (schedule (h _))

end Silent

theorem silent_sdramBlock (i : Inputs) : Silent (sdramBlock i) := by
  refine Silent.reads fun s => ?_
  have hstate : ∀ v, Silent (Scheduling.schedule (setSdram v)) := fun v => Silent.schedule fun _ => rfl
  have hdata : ∀ v, Silent (Scheduling.schedule (setDataSdram v)) := fun v => Silent.schedule fun _ => rfl
  have hadv : ∀ v next, Silent (advance setSdram v next) := Silent.advance fun _ _ => rfl
  dsimp only
  refine Silent.ite (Silent.ite ((hstate _).seq (hdata _)) Silent.skip) ?_
  refine Silent.ite (Silent.ite ((hstate _).seq (hdata _)) (hstate _)) ?_
  exact Silent.ite (hadv _ _) (Silent.ite (hadv _ _) (Silent.ite (hadv _ _)
    (Silent.ite (hstate _) Silent.skip)))

theorem silent_flashBlock (i : Inputs) : Silent (flashBlock i) := by
  refine Silent.reads fun s => ?_
  have hstate : ∀ v, Silent (Scheduling.schedule (setFlash v)) := fun v => Silent.schedule fun _ => rfl
  have hdata : ∀ v, Silent (Scheduling.schedule (setDataFlash v)) := fun v => Silent.schedule fun _ => rfl
  have hadv : ∀ v next, Silent (advance setFlash v next) := Silent.advance fun _ _ => rfl
  dsimp only
  refine Silent.ite (Silent.ite ((hstate _).seq (hdata _)) (hstate _)) ?_
  exact Silent.ite (hadv _ _) (Silent.ite (hadv _ _) (Silent.ite (hadv _ _) (Silent.ite (hadv _ _) (hstate _))))

theorem silent_romBlock (i : Inputs) : Silent (romBlock i) := by
  refine Silent.reads fun s => ?_
  have hstate : ∀ v, Silent (Scheduling.schedule (setRom v)) := fun v => Silent.schedule fun _ => rfl
  have hdata : ∀ v, Silent (Scheduling.schedule (setDataRom v)) := fun v => Silent.schedule fun _ => rfl
  have hadv : ∀ v next, Silent (advance setRom v next) := Silent.advance fun _ _ => rfl
  dsimp only
  refine Silent.ite (Silent.ite ((hstate _).seq (hdata _)) (hstate _)) ?_
  refine Silent.ite (Silent.ite ((hstate _).seq (hdata _)) (hstate _)) ?_
  refine Silent.ite (Silent.ite ((hstate _).seq (hdata _)) (hstate _)) ?_
  exact Silent.ite (hadv _ _) (Silent.ite (hadv _ _) (hstate _))

theorem silent_machineBlock (i : Inputs) : Silent (machineBlock i) := by
  refine Silent.ite ?_ ((silent_sdramBlock i).seq ((silent_flashBlock i).seq (silent_romBlock i)))
  have hstate : Silent (schedule (setSdram ready)) ∧ Silent (schedule (setFlash ready)) ∧
      Silent (schedule (setRom ready)) :=
    ⟨Silent.schedule fun _ => rfl, Silent.schedule fun _ => rfl, Silent.schedule fun _ => rfl⟩
  have hdata : Silent (schedule (setDataSdram 0)) ∧ Silent (schedule (setDataFlash 0)) ∧
      Silent (schedule (setDataRom 0)) :=
    ⟨Silent.schedule fun _ => rfl, Silent.schedule fun _ => rfl, Silent.schedule fun _ => rfl⟩
  exact hstate.1.seq (hstate.2.1.seq (hstate.2.2.seq (hdata.1.seq (hdata.2.1.seq hdata.2.2))))

/-- The state in `reg_state` was not seen before. -/
def Cover.New (c : Cover) : Prop := c.covmap c.regState.toFin = false

instance (c : Cover) : Decidable c.New := inferInstanceAs (Decidable (_ = false))

/-- The queue of the block of the map. -/
def coverQueue (i : Inputs) (s : MemCtrl) : List (MemCtrl → MemCtrl) :=
  [setRegState (s.machines.stateFlash ++ s.machines.stateSdram ++ s.machines.stateRom)] ++
    (if s.cover.New then [setCovsum (s.cover.covsum + 1), setCovmap s.cover.regState.toFin true] else []) ++
    if i.metaReset then [setCovsum 0] else []

/-- The map after the loop. -/
def cleared (s : MemCtrl) : MemCtrl := { s with cover := { s.cover with covmap := fun _ => false } }

theorem clearLoop_eq (a : Active MemCtrl) : clearLoop a = ((), ⟨cleared a.now, a.later⟩) := by
  have hloop : ∀ (l : List (Fin (2 ^ 9))) (s : MemCtrl), l.foldl (fun s j => setCovmap j false s) s =
      { s with cover := { s.cover with covmap := fun j => if j ∈ l then false else s.cover.covmap j } } := by
    intro l
    induction l with
    | nil => exact fun s => rfl
    | cons j l ih =>
        intro s
        rw [List.foldl_cons, ih]
        have hmap : (fun k => if k ∈ l then false else (setCovmap j false s).cover.covmap k) =
            fun k => if k ∈ j :: l then false else s.cover.covmap k := by
          funext k
          by_cases hl : k ∈ l
          · simp [hl]
          · by_cases hk : k = j <;> simp [setCovmap, hl, hk]
        rw [hmap]
        rfl
  unfold clearLoop
  rw [forM_assign, hloop]
  simp [cleared]

/-- What the block of the map does. -/
theorem coverBlock_eq (i : Inputs) (s : MemCtrl) (l : List (MemCtrl → MemCtrl)) :
    coverBlock i ⟨s, l⟩ = ((), ⟨if i.metaReset then cleared s else s, l ++ coverQueue i s⟩) := by
  have hclear := clearLoop_eq
  unfold coverBlock coverQueue
  generalize clearLoop = clear at hclear ⊢
  unfold Cover.New
  by_cases hn : s.cover.covmap s.cover.regState.toFin = false
  · cases hm : i.metaReset <;>
      simp [bind_apply, now_apply, schedule_apply, hclear, hn]
  · cases hm : i.metaReset <;>
      simp [bind_apply, now_apply, schedule_apply, pure_apply, hclear, hn]

/-- The map and the sum behind an edge: the bit of a new state is set last. -/
def Cover.next (metaReset : Bool) (state : BitVec 9) (c : Cover) : Cover where
  covmap := fun j => if c.New ∧ j = c.regState.toFin then true else if metaReset then false else c.covmap j
  regState := state
  covsum := if metaReset then 0 else if c.New then c.covsum + 1 else c.covsum

theorem cover_queue {i : Inputs} {s t : MemCtrl}
    (h : t.cover = (if i.metaReset then cleared s else s).cover) :
    ((coverQueue i s).foldl (fun s f => f s) t).cover =
      s.cover.next i.metaReset (s.machines.stateFlash ++ s.machines.stateSdram ++ s.machines.stateRom) := by
  unfold coverQueue Cover.next
  by_cases hn : s.cover.New <;> cases hm : i.metaReset
  all_goals simp [hm] at h
  all_goals simp [hn, setRegState, setCovsum, setCovmap, cleared, h]

/-- **What an edge makes of the map**, whichever block runs first. -/
theorem cover_cycle (coverFirst : Bool) (i : Inputs) (s : MemCtrl) :
    (cycle coverFirst i s).cover =
      s.cover.next i.metaReset (s.machines.stateFlash ++ s.machines.stateSdram ++ s.machines.stateRom) := by
  cases coverFirst with
  | true =>
      obtain ⟨us, hus, hsilent⟩ := silent_machineBlock i ⟨if i.metaReset then cleared s else s, coverQueue i s⟩
      show (settle (machineBlock i (coverBlock i ⟨s, []⟩).2).2).cover = _
      rw [coverBlock_eq, List.nil_append, hus, settle, List.foldl_append, proj_silent hsilent]
      exact cover_queue rfl
  | false =>
      -- the updates of the machines come first in the queue
      obtain ⟨us, hus, hsilent⟩ := silent_machineBlock i ⟨s, []⟩
      show (settle (coverBlock i (machineBlock i ⟨s, []⟩).2).2).cover = _
      rw [hus, List.nil_append, coverBlock_eq, settle, List.foldl_append]
      exact cover_queue (proj_silent hsilent _)

/-! ## 3. The sum and the map -/

/-- The bits of the map that are set. -/
def Cover.count (c : Cover) : Nat := (Finset.univ.filter fun j => c.covmap j = true).card

/-- The sum is the number of bits that are set, modulo 512. -/
def Cover.Counts (c : Cover) : Prop := c.covsum.toNat = c.count % 512

/-- A new state is seen while the map is cleared. -/
def ClearsNew (i : Inputs) (s : MemCtrl) : Prop := i.metaReset = true ∧ s.cover.New

namespace Cover

variable {c : Cover} {state : BitVec 9}

theorem count_next_new (h : c.New) : (c.next false state).count = c.count + 1 := by
  have hfilter : (Finset.univ.filter fun j => (c.next false state).covmap j = true) =
      insert c.regState.toFin (Finset.univ.filter fun j => c.covmap j = true) := by
    ext j
    by_cases hj : j = c.regState.toFin <;> simp [next, h, hj]
  have hnot : c.regState.toFin ∉ Finset.univ.filter fun j => c.covmap j = true := by
    have hnew : c.covmap c.regState.toFin = false := h
    simp [hnew]
  rw [count, hfilter, Finset.card_insert_of_notMem hnot, count]

theorem count_next_seen (h : ¬ c.New) : (c.next false state).count = c.count := by
  have hmap : (c.next false state).covmap = c.covmap := by
    funext j
    simp [next, h]
  rw [count, hmap, count]

theorem count_next_clear (h : ¬ c.New) : (c.next true state).count = 0 := by
  rw [count, Finset.card_eq_zero, Finset.filter_eq_empty_iff]
  intro j _
  simp [next, h]

/-- The new state is the only one that is left. -/
theorem count_next_clearsNew (h : c.New) : (c.next true state).count = 1 := by
  rw [count, Finset.card_eq_one]
  refine ⟨c.regState.toFin, ?_⟩
  ext j
  simp [next, h]

/-- **An edge keeps the count** if it does not clear a new state. -/
theorem counts_next {metaReset : Bool} (hc : c.Counts) (h : ¬ (metaReset = true ∧ c.New)) :
    (c.next metaReset state).Counts := by
  unfold Counts at hc ⊢
  cases metaReset with
  | true =>
      have hseen : ¬ c.New := fun hn => h ⟨rfl, hn⟩
      rw [count_next_clear hseen]
      rfl
  | false =>
      by_cases hn : c.New
      · have hsum : (c.next false state).covsum = c.covsum + 1 := by simp [next, hn]
        rw [count_next_new hn, hsum, BitVec.toNat_add, hc]
        show (c.count % 512 + 1) % 512 = _
        omega
      · have hsum : (c.next false state).covsum = c.covsum := by simp [next, hn]
        rw [count_next_seen hn, hsum, hc]

theorem not_counts_next (h : c.New) : ¬ (c.next true state).Counts := by
  unfold Counts
  rw [count_next_clearsNew h]
  exact fun h => (nomatch h)

theorem counts_initial (hmap : ∀ j, c.covmap j = false) (hsum : c.covsum = 0) : c.Counts := by
  have hcount : c.count = 0 := by
    rw [count, Finset.card_eq_zero, Finset.filter_eq_empty_iff]
    intro j _
    simp [hmap j]
  rw [Counts, hcount, hsum]
  rfl

end Cover

/-- The states of a run, with the order of the blocks at each edge. -/
def run (s : MemCtrl) (inputs : Nat → Inputs) (coverFirst : Nat → Bool) : Nat → MemCtrl
  | 0 => s
  | t + 1 => cycle (coverFirst t) (inputs t) (run s inputs coverFirst t)

/-- **The sum counts the map exactly as long as no new state is seen while the map is cleared**: at all
    edges of a run of any length, whatever the inputs and the registers without an initial value are. -/
theorem covsum_counts_iff {s : MemCtrl} (hs : Initial s) (inputs : Nat → Inputs) (coverFirst : Nat → Bool)
    (n : Nat) :
    (∀ t < n, (run s inputs coverFirst (t + 1)).cover.Counts) ↔
      ∀ t < n, ¬ ClearsNew (inputs t) (run s inputs coverFirst t) := by
  constructor
  · intro h t ht hbad
    have hc := h t ht
    rw [run, cover_cycle, hbad.1] at hc
    exact Cover.not_counts_next hbad.2 hc
  · intro h
    have hall : ∀ t ≤ n, (run s inputs coverFirst t).cover.Counts := by
      intro t
      induction t with
      | zero => exact fun _ => Cover.counts_initial hs.covmap hs.covsum
      | succ t ih =>
          intro ht
          rw [run, cover_cycle]
          exact Cover.counts_next (ih (by omega)) (h t (by omega))
    exact fun t ht => hall (t + 1) ht

/-- An initial state with zeros in all registers. -/
def zeros : MemCtrl where
  machines := ⟨0, 0, 0, 0, 0, 0⟩
  cover := ⟨fun _ => false, 0, 0⟩

/-- One edge without any signal. -/
def idle : Inputs := ⟨false, false, false, 0, false, 0, false, 0⟩

/-- The map is cleared at the second edge, which sees the state of the first one again. -/
def resetInputs (t : Nat) : Inputs := if t = 1 then { idle with metaReset := true } else idle

def blockOrder (t : Nat) : Bool := t % 2 = 0

theorem covsum_counts_seen :
    (∀ t < 3, (run zeros resetInputs blockOrder (t + 1)).cover.Counts) ∧
    (run zeros resetInputs blockOrder 1).cover.covsum = 1 ∧
    (run zeros resetInputs blockOrder 2).cover.covsum = 0 := by
  have hseen : ¬ (run zeros resetInputs blockOrder 1).cover.New := by
    rw [run, cover_cycle]
    decide
  refine ⟨(covsum_counts_iff (s := zeros) ⟨fun _ => rfl, rfl⟩ resetInputs blockOrder 3).mpr
    fun t ht hbad => ?_, ?_, ?_⟩
  · obtain rfl | hne := eq_or_ne t 1
    · exact hseen hbad.2
    · have hidle : (resetInputs t).metaReset = false := by rw [resetInputs, if_neg hne]; rfl
      exact absurd (hidle.symm.trans hbad.1) Bool.false_ne_true
  · rw [run, cover_cycle]
    rfl
  · rw [run, cover_cycle]
    rfl

/-- The first edge, with `meta_reset`. -/
theorem covsum_metaReset : Initial zeros ∧
    ¬ (run zeros (fun _ => { idle with metaReset := true }) (fun _ => true) 1).cover.Counts := by
  refine ⟨⟨fun _ => rfl, rfl⟩, ?_⟩
  rw [run, cover_cycle]
  exact Cover.not_counts_next rfl

end Difuzz.Micro
