/-
  File:      DifuzzRtl/Fuzzer/CovMaps.lean
  Subject:   The coverage maps that the processes merge (`store_covmap` of src/multicore_manager.py).

  * `storeCovmap` -- the method, step by step: under the semaphore, each map of the process is read
    together with the shared one, and the shared one is written.
  * `merged` -- the purpose: a bit is set if it was set at first or in a map that has been stored.
  * `storeFiles_eval` -- a call that runs alone merges its maps and counts the ones.
  * `merging` -- any number of processes that store, in any order of their steps.
  * `MapsInv` -- the invariant: no call is under way, or one process is inside, and what it still has to do
    leads where its call would have led alone.
  * `covmaps_merged` -- nothing is lost, whatever the order; the logged coverage is the number of ones.
-/
import Mathlib.Data.List.Perm.Basic
import Mathlib.Algebra.Order.BigOperators.Group.List
import DifuzzRtl.Lib.Effects
import DifuzzRtl.Lib.Programs
import DifuzzRtl.Lib.Text

namespace Difuzz.Fuzzer

open Text Prog

/-! ## 1. The method -/

/-- A file: its name and its text. -/
abbrev MapFile := Text × Text

/-- The steps of `store_covmap`. The listing comes with the texts of the files: the directory is the
    process's own, and nobody else writes there. -/
inductive MapEff where
  | p
  | v
  | listdir (covmaps : List MapFile)
  | readShared (covFile : Text)
  | write (covFile covString : Text)
  | log (iters covSum : Nat)
  | raise
  deriving DecidableEq

/-- What is answered: the first line of a shared map, if there is such a file. -/
abbrev MapAns : MapEff → Type
  | .readShared _ => Option Text
  | .raise => Empty
  | _ => Unit

abbrev MapProgram (α : Type) := Prog MapEff MapAns α

abbrev mapStep (e : MapEff) : MapProgram (MapAns e) := ask e

def readShared (covFile : Text) : MapProgram (Option Text) := mapStep (.readShared covFile)

/-- `os.path.getsize`: the number of bytes. -/
def getsize (file : Text) : Nat := (file.map Char.utf8Size).sum

/-- `int(line[n])`. -/
def digitAt (text : Text) (n : Nat) : Option Nat :=
  text[n]?.bind fun c => (pyInt 10 [c]).map Int.toNat

/-- The digits of the shared map; one for each byte of the process's map. -/
def readMap (size : Nat) (line : Text) : Option (List Nat) := (List.range size).mapM (digitAt line)

/-- `cov_map[n] | int(line[n])` for each entry. -/
def orMap (covMap : List Nat) (line : Text) : Option (List Nat) :=
  (List.range covMap.length).mapM fun n => (digitAt line n).map (covMap.getD n 0 ||| ·)

/-- An `IndexError` or a `ValueError` leaves the method, with the semaphore closed. -/
def orRaise {α : Type} : Option α → MapProgram α
  | some a => pure a
  | none => .op .raise fun x => nomatch x

/-- The map at first: zeros, or the shared one. -/
def initialMap (size : Nat) : Option Text → Option (List Nat)
  | none => some (List.replicate size 0)
  | some line => readMap size line

/-- One file. -/
def storeFile (covSum : Nat) (f : MapFile) : MapProgram Nat := do
  let line ← readShared f.1
  let covMap ← orRaise (initialMap (getsize f.2) line)
  let covMap ← orRaise (orMap covMap (readline f.2))
  mapStep (.write f.1 (covMap.flatMap (digits 10)))
  return covSum + covMap.sum

/-- The loop over the files. -/
def storeFiles : Nat → List MapFile → MapProgram Nat
  | covSum, [] => pure covSum
  | covSum, f :: fs => do
      let covSum ← storeFile covSum f
      storeFiles covSum fs

/-- The part after the listing. -/
def storeListed (iters : Nat) (covmaps : List MapFile) : MapProgram Unit := do
  let covSum ← storeFiles 0 covmaps
  mapStep (.log iters covSum)

/-- **`store_covmap`.** -/
def storeCovmap (iters : Nat) (covmaps : List MapFile) : MapProgram Unit := do
  mapStep .p
  mapStep (.listdir covmaps)
  storeListed iters covmaps
  mapStep .v

/-- The calls of one slot, batch after batch. -/
def stores : List (Nat × List MapFile) → MapProgram Unit
  | [] => pure ()
  | call :: calls => do
      storeCovmap call.1 call.2
      stores calls

/-- The semaphore, the files of the shared directory, and the log: iterations and coverage. -/
structure CovMaps where
  sem : Nat
  files : Text → Option Text
  log : List (Nat × Nat)

def CovMaps.handle (s : CovMaps) : (e : MapEff) → Option (MapAns e × CovMaps)
  | .p => if 0 < s.sem then some ((), { s with sem := s.sem - 1 }) else none
  | .v => some ((), { s with sem := s.sem + 1 })
  | .listdir _ => some ((), s)
  | .readShared covFile => some ((s.files covFile).map readline, s)
  | .write covFile covString => some ((), { s with files := Function.update s.files covFile (some covString) })
  | .log iters covSum => some ((), { s with log := s.log ++ [(iters, covSum)] })
  | .raise => none

/-! ## 2. Maps -/

/-- A map: so many digits, each of them 0 or 1. -/
def IsMap (n : Nat) (t : Text) : Prop := t.length = n ∧ ∀ c ∈ t, c = '0' ∨ c = '1'

/-- A bit of a map; a file that is not there has none. -/
def bit (t : Option Text) (n : Nat) : Bool := t.bind (·[n]?) = some '1'

def bitChar (b : Bool) : Char := if b then '1' else '0'

/-- The number of ones. -/
def ones (t : Option Text) : Nat := (t.getD []).count '1'

/-- The text with given bits. -/
def mapText (n : Nat) (b : Nat → Bool) : Text := (List.range n).map fun k => bitChar (b k)

section Maps

variable {n k : Nat} {t : Text} {b : Nat → Bool}

theorem isMap_mapText (n : Nat) (b : Nat → Bool) : IsMap n (mapText n b) := by
  refine ⟨by simp [mapText], fun c hc => ?_⟩
  obtain ⟨k, -, rfl⟩ := List.mem_map.mp hc
  cases b k
  · exact .inl rfl
  · exact .inr rfl

theorem bit_mapText (hk : k < n) : bit (some (mapText n b)) k = b k := by
  have hget : (mapText n b)[k]? = some (bitChar (b k)) := by simp [mapText, hk]
  show decide ((mapText n b)[k]? = some '1') = b k
  rw [hget]
  cases b k <;> rfl

theorem mapText_congr {b' : Nat → Bool} (h : ∀ k < n, b k = b' k) : mapText n b = mapText n b' :=
  List.map_congr_left fun k hk => congrArg bitChar (h k (List.mem_range.mp hk))

/-- A map is the text of its bits. -/
theorem IsMap.eq_mapText (h : IsMap n t) : t = mapText n fun k => bit (some t) k := by
  obtain ⟨rfl, hc⟩ := h
  refine List.ext_getElem (by simp [mapText]) fun k hk _ => ?_
  have hbit : bit (some t) k = decide (t[k] = '1') := by
    show decide (t[k]? = some '1') = _
    simp only [List.getElem?_eq_getElem hk, Option.some.injEq]
  simp only [mapText, List.getElem_map, List.getElem_range, hbit]
  rcases hc t[k] (List.getElem_mem hk) with h | h <;> rw [h] <;> rfl

theorem IsMap.oneLine (h : IsMap n t) : OneLine t := by
  constructor <;> intro hc <;> rcases h.2 _ hc with h | h <;> cases h

theorem IsMap.getsize (h : IsMap n t) : getsize t = n := by
  have hone : t.map Char.utf8Size = t.map fun _ => 1 :=
    List.map_congr_left fun c hc => by rcases h.2 c hc with rfl | rfl <;> rfl
  rw [Fuzzer.getsize, hone, List.map_const', List.sum_replicate_nat, Nat.mul_one, h.1]

theorem IsMap.digitAt (h : IsMap n t) (hk : k < n) : digitAt t k = some (bit (some t) k).toNat := by
  have hlt : k < t.length := h.1 ▸ hk
  show t[k]?.bind _ = some (decide (t[k]? = some '1')).toNat
  rw [List.getElem?_eq_getElem hlt, Option.bind_some]
  rcases h.2 t[k] (List.getElem_mem hlt) with hc | hc <;> rw [hc] <;> rfl

theorem ones_mapText (n : Nat) (b : Nat → Bool) : ones (some (mapText n b)) = (List.range n).countP b := by
  show ((List.range n).map fun k => bitChar (b k)).count '1' = _
  rw [List.count, List.countP_map]
  refine List.countP_congr fun k _ => ?_
  show (bitChar (b k) == '1') = true ↔ b k = true
  cases b k <;> decide

end Maps

/-! ## 3. Merging -/

/-- What the directories of the processes hold: the names of the files, and the size of each. -/
structure MapNames where
  names : List Text
  size : Text → Nat
  nodup : names.Nodup

/-- The maps of a process, in the order of the listing. -/
def MapNames.Ok (S : MapNames) (covmaps : List MapFile) : Prop :=
  (covmaps.map Prod.fst).Perm S.names ∧ ∀ f ∈ covmaps, IsMap (S.size f.1) f.2

/-- The shared maps, as far as they exist. -/
def MapNames.SharedOk (S : MapNames) (files : Text → Option Text) : Prop :=
  ∀ name ∈ S.names, ∀ t, files name = some t → IsMap (S.size name) t

/-- **The pointwise OR** of the shared maps and of all maps that have been stored. -/
def MapNames.merged (S : MapNames) (files : Text → Option Text) (maps : List MapFile) (name : Text) :
    Option Text :=
  if maps.any fun f => f.1 = name then
    some (mapText (S.size name) fun k => bit (files name) k || maps.any fun f => f.1 = name && bit (some f.2) k)
  else files name

/-- The number of ones of all shared maps. -/
def MapNames.total (S : MapNames) (files : Text → Option Text) : Nat :=
  (S.names.map fun name => ones (files name)).sum

section Merged

variable {S : MapNames} {files : Text → Option Text} {maps : List MapFile} {name : Text}

theorem merged_sharedOk (h : S.SharedOk files) (maps : List MapFile) : S.SharedOk (S.merged files maps) := by
  intro name hname t ht
  unfold MapNames.merged at ht
  split at ht
  · cases ht
    exact isMap_mapText _ _
  · exact h name hname t ht

/-- A bit is set if it was, or if a stored map has it. -/
theorem bit_merged {k : Nat} (hk : k < S.size name) : bit (S.merged files maps name) k =
    (bit (files name) k || maps.any fun f => f.1 = name && bit (some f.2) k) := by
  unfold MapNames.merged
  split
  · exact bit_mapText hk
  · rename_i hno
    have hany : (maps.any fun f => f.1 = name && bit (some f.2) k) = false := by
      refine List.any_eq_false.mpr fun f hf hb => hno (List.any_eq_true.mpr ⟨f, hf, ?_⟩)
      exact (Bool.and_eq_true_iff.mp hb).1
    rw [hany, Bool.or_false]

theorem merged_of_any (h : (maps.any fun f => f.1 = name) = true) : S.merged files maps name =
    some (mapText (S.size name) fun k =>
      bit (files name) k || maps.any fun f => f.1 = name && bit (some f.2) k) := if_pos h

theorem merged_append_of_ne {fs : List MapFile} (h : ∀ f ∈ fs, f.1 ≠ name) :
    S.merged files (maps ++ fs) name = S.merged files maps name := by
  have hany : ∀ p : MapFile → Bool, ((maps ++ fs).any fun f => f.1 = name && p f) =
      maps.any fun f => f.1 = name && p f := by
    intro p
    have hno : (fs.any fun f => f.1 = name && p f) = false :=
      List.any_eq_false.mpr fun f hf => by simp [h f hf]
    rw [List.any_append, hno, Bool.or_false]
  have hname : ((maps ++ fs).any fun f => f.1 = name) = maps.any fun f => f.1 = name := by
    simpa using hany fun _ => true
  unfold MapNames.merged
  simp only [hany, hname]

/-- **One file is merged into the others.** -/
theorem merged_concat (f : MapFile) :
    Function.update (S.merged files maps) f.1
        (some (mapText (S.size f.1) fun k => bit (S.merged files maps f.1) k || bit (some f.2) k)) =
      S.merged files (maps ++ [f]) := by
  funext name
  by_cases hname : name = f.1
  · subst hname
    rw [Function.update_self]
    have hmem : ((maps ++ [f]).any fun g => g.1 = f.1) = true := by simp
    rw [merged_of_any hmem]
    refine congrArg some (mapText_congr fun k hk => ?_)
    rw [bit_merged hk]
    simp [Bool.or_assoc]
  · rw [Function.update_of_ne hname]
    exact (merged_append_of_ne fun g hg => List.mem_singleton.mp hg ▸ Ne.symm hname).symm

/-- The result depends on the set of the stored maps only. -/
theorem merged_congr {maps' : List MapFile} (h : ∀ f, f ∈ maps ↔ f ∈ maps') :
    S.merged files maps = S.merged files maps' := by
  have hany : ∀ p : MapFile → Bool, maps.any p = maps'.any p := by
    intro p
    rw [Bool.eq_iff_iff, List.any_eq_true, List.any_eq_true]
    simp only [h]
  funext name
  unfold MapNames.merged
  simp only [hany]

theorem ones_of_sharedOk (h : S.SharedOk files) (hname : name ∈ S.names) :
    ones (files name) = (List.range (S.size name)).countP (bit (files name)) := by
  cases hf : files name with
  | none =>
      refine (List.countP_eq_zero.mpr fun k _ hb => ?_).symm
      cases hb
  | some t =>
      rw [(h name hname t hf).eq_mapText, ones_mapText]
      refine List.countP_congr fun k hk => ?_
      rw [bit_mapText (List.mem_range.mp hk)]

/-- Ones do not go away. -/
theorem total_merged_le (h : S.SharedOk files) (fs : List MapFile) :
    S.total (S.merged files maps) ≤ S.total (S.merged files (maps ++ fs)) := by
  refine List.sum_le_sum fun name hname => ?_
  rw [ones_of_sharedOk (merged_sharedOk h _) hname, ones_of_sharedOk (merged_sharedOk h _) hname]
  refine List.countP_mono_left fun k hk hb => ?_
  have hlt := List.mem_range.mp hk
  rw [bit_merged hlt] at hb ⊢
  rw [List.any_append, ← Bool.or_assoc, hb, Bool.true_or]

end Merged

/-! ## 4. A call alone -/

section Alone

variable {S : MapNames} {s : CovMaps} {n : Nat} {t : Text}

theorem IsMap.readMap (h : IsMap n t) :
    readMap n t = some ((List.range n).map fun k => (bit (some t) k).toNat) :=
  mapM_eq_pure fun _ hk => h.digitAt (List.mem_range.mp hk)

theorem IsMap.orMap (h : IsMap n t) (b : Nat → Bool) :
    orMap ((List.range n).map fun k => (b k).toNat) t =
      some ((List.range n).map fun k => (b k || bit (some t) k).toNat) := by
  unfold Fuzzer.orMap
  rw [List.length_map, List.length_range]
  refine mapM_eq_pure fun k hk => ?_
  have hk := List.mem_range.mp hk
  rw [h.digitAt hk, List.getD_eq_getElem?_getD, List.getElem?_map, List.getElem?_range hk]
  show some ((b k).toNat ||| (bit (some t) k).toNat) = some (b k || bit (some t) k).toNat
  cases b k <;> cases bit (some t) k <;> rfl

theorem flatMap_digits (n : Nat) (b : Nat → Bool) :
    ((List.range n).map fun k => (b k).toNat).flatMap (digits 10) = mapText n b := by
  have hone : ∀ c : Bool, digits 10 c.toNat = [bitChar c] := by decide
  rw [List.flatMap_map, mapText, ← List.flatMap_singleton' (List.map _ _), List.flatMap_map]
  simp only [hone]

theorem sum_bits (n : Nat) (b : Nat → Bool) :
    ((List.range n).map fun k => (b k).toNat).sum = ones (some (mapText n b)) := by
  rw [ones_mapText]
  induction List.range n with
  | nil => rfl
  | cons k l ih =>
      rw [List.map_cons, List.sum_cons, ih, List.countP_cons, Nat.add_comm]
      cases b k <;> rfl

/-- The shared map at first, also where there is none. -/
theorem initialMap_eq {old : Option Text} (h : ∀ t, old = some t → IsMap n t) :
    initialMap n (old.map readline) = some ((List.range n).map fun k => (bit old k).toNat) := by
  cases old with
  | none =>
      show some (List.replicate n 0) = some ((List.range n).map fun _ => 0)
      rw [List.map_const', List.length_range]
  | some t =>
      have ht := h t rfl
      show readMap n (readline t) = _
      rw [readline_oneLine ht.oneLine, ht.readMap]

/-- **One file**: its map is merged into the shared one, and the ones are counted. -/
theorem storeFile_eval {f : MapFile} (hf : IsMap n f.2) (hold : ∀ t, s.files f.1 = some t → IsMap n t)
    (covSum : Nat) :
    let new := some (mapText n fun k => bit (s.files f.1) k || bit (some f.2) k)
    (storeFile covSum f).eval CovMaps.handle s =
      some (covSum + ones new, { s with files := Function.update s.files f.1 new }) := by
  show (orRaise (initialMap (getsize f.2) ((s.files f.1).map readline)) >>= fun covMap =>
    orRaise (orMap covMap (readline f.2)) >>= _ : MapProgram Nat).eval CovMaps.handle s = _
  rw [hf.getsize, initialMap_eq hold]
  show (orRaise (orMap _ (readline f.2)) >>= _ : MapProgram Nat).eval CovMaps.handle s = _
  rw [readline_oneLine hf.oneLine, hf.orMap, ← sum_bits, ← flatMap_digits]
  rfl

variable {files : Text → Option Text} {maps : List MapFile}

/-- **The loop**: all files are merged, and the ones of their maps are counted. -/
theorem storeFiles_eval (hfiles : S.SharedOk files) {covmaps : List MapFile}
    (hmem : ∀ f ∈ covmaps, f.1 ∈ S.names) (hnodup : (covmaps.map Prod.fst).Nodup)
    (hmaps : ∀ f ∈ covmaps, IsMap (S.size f.1) f.2) (hs : s.files = S.merged files maps) (covSum : Nat) :
    (storeFiles covSum covmaps).eval CovMaps.handle s =
      some (covSum + (covmaps.map fun f => ones (S.merged files (maps ++ covmaps) f.1)).sum,
        { s with files := S.merged files (maps ++ covmaps) }) := by
  induction covmaps generalizing covSum s maps with
  | nil =>
      rw [List.append_nil, ← hs]
      rfl
  | cons f fs ih =>
      rw [List.map_cons, List.nodup_cons] at hnodup
      have hname := hmem f List.mem_cons_self
      have hf := hmaps f List.mem_cons_self
      have hold : ∀ t, s.files f.1 = some t → IsMap (S.size f.1) t := by
        rw [hs]
        exact merged_sharedOk hfiles maps f.1 hname
      -- the map of this file is not written again
      have hsame : S.merged files (maps ++ f :: fs) f.1 = S.merged files (maps ++ [f]) f.1 := by
        rw [List.append_cons]
        exact merged_append_of_ne fun g hg he => hnodup.1 (he ▸ List.mem_map_of_mem hg)
      have hnext : Function.update s.files f.1
          (some (mapText (S.size f.1) fun k => bit (s.files f.1) k || bit (some f.2) k)) =
            S.merged files (maps ++ [f]) := by
        rw [hs, merged_concat]
      have hnew : S.merged files (maps ++ [f]) f.1 =
          some (mapText (S.size f.1) fun k => bit (s.files f.1) k || bit (some f.2) k) := by
        rw [← hnext, Function.update_self]
      rw [storeFiles, eval_bind, storeFile_eval hf hold, Option.bind_some]
      rw [ih (fun g hg => hmem g (List.mem_cons_of_mem _ hg)) hnodup.2
        (fun g hg => hmaps g (List.mem_cons_of_mem _ hg)) hnext]
      rw [List.map_cons, List.sum_cons, hsame, hnew, List.append_assoc, List.singleton_append, Nat.add_assoc]

/-- **A call that runs alone.** -/
theorem storeListed_eval (hfiles : S.SharedOk files) {covmaps : List MapFile} (hok : S.Ok covmaps)
    (hs : s.files = S.merged files maps) (iters : Nat) :
    (storeListed iters covmaps).eval CovMaps.handle s =
      some ((), { s with files := S.merged files (maps ++ covmaps)
                         log := s.log ++ [(iters, S.total (S.merged files (maps ++ covmaps)))] }) := by
  have hmem : ∀ f ∈ covmaps, f.1 ∈ S.names := fun f hf => hok.1.mem_iff.mp (List.mem_map_of_mem hf)
  have hsum : (covmaps.map fun f => ones (S.merged files (maps ++ covmaps) f.1)).sum =
      S.total (S.merged files (maps ++ covmaps)) := by
    have := (hok.1.map fun name => ones (S.merged files (maps ++ covmaps) name)).sum_eq
    rwa [List.map_map] at this
  rw [storeListed, eval_bind, storeFiles_eval hfiles hmem (hok.1.nodup_iff.mpr S.nodup) hok.2 hs, hsum,
    Nat.zero_add]
  rfl

end Alone

/-! ## 5. Many processes -/

abbrev Storing := Processes CovMaps MapEff MapAns

/-- The maps of the calls, in the order in which these have taken the semaphore: the listing is the first
    step after that. -/
def stored (events : List (Nat × Prog.Event MapEff MapAns)) : List (List MapFile) :=
  events.filterMap fun x =>
    match x.2 with
    | ⟨.listdir covmaps, _⟩ => some covmaps
    | _ => none

/-- A process outside of the method, with some calls still to come. -/
def Outside (S : MapNames) (p : MapProgram Unit) : Prop :=
  ∃ calls : List (Nat × List MapFile), (∀ call ∈ calls, S.Ok call.2) ∧ p = stores calls

/-- **Processes that store their maps**, over a shared directory with some maps. -/
def merging (S : MapNames) (files : Text → Option Text) : Machine Storing Nat where
  init st := S.SharedOk files ∧ st.shared = ⟨1, files, []⟩ ∧ (∀ i, Outside S (st.procs i)) ∧ st.events = []
  step st i st' := st.turn CovMaps.handle i = some st'

/-- What is shared after some calls: the maps are merged, and each call has logged the number of ones. -/
structure Merged (S : MapNames) (files : Text → Option Text) (s : CovMaps) (calls : List (List MapFile)) :
    Prop where
  maps : s.files = S.merged files calls.flatten
  sums : s.log.map Prod.snd =
    (List.range calls.length).map fun k => S.total (S.merged files (calls.take (k + 1)).flatten)

/-- **The invariant.** No call is under way; or a process has taken the semaphore; or it has listed its maps,
    and `q` is what it still has to do: it leads where the whole call would have led from `s₀`. -/
inductive MapsInv (S : MapNames) (files : Text → Option Text) (st : Storing) : Prop where
  | free (hout : ∀ j, Outside S (st.procs j)) (hsem : st.shared.sem = 1)
      (hm : Merged S files st.shared (stored st.events))
  | entered (i : Nat) (call : Nat × List MapFile) (rest : MapProgram Unit)
      (hout : ∀ j, j ≠ i → Outside S (st.procs j)) (hrest : Outside S rest) (hok : S.Ok call.2)
      (hi : st.procs i = do
        mapStep (.listdir call.2)
        storeListed call.1 call.2
        mapStep .v
        rest)
      (hsem : st.shared.sem = 0) (hm : Merged S files st.shared (stored st.events))
  | storing (i : Nat) (call : Nat × List MapFile) (rest q : MapProgram Unit) (s₀ : CovMaps)
      (prev : List (List MapFile)) (hout : ∀ j, j ≠ i → Outside S (st.procs j)) (hrest : Outside S rest)
      (hok : S.Ok call.2)
      (hi : st.procs i = do
        q
        mapStep .v
        rest)
      (hquiet : q.Only fun e => e ≠ .p ∧ e ≠ .v ∧ ∀ covmaps, e ≠ .listdir covmaps)
      (hsem : st.shared.sem = 0)
      (hq : q.eval CovMaps.handle st.shared = (storeListed call.1 call.2).eval CovMaps.handle s₀)
      (hm : Merged S files s₀ prev) (hstored : stored st.events = prev ++ [call.2]) (hsem₀ : s₀.sem = 0)

section Steps

variable {S : MapNames} {files : Text → Option Text} {s s' : CovMaps} {calls : List (List MapFile)}

theorem stored_append (events : List (Nat × Prog.Event MapEff MapAns)) (i : Nat)
    (x : Prog.Event MapEff MapAns) (h : ∀ covmaps, x.1 ≠ .listdir covmaps) :
    stored (events ++ [(i, x)]) = stored events := by
  unfold stored
  rw [List.filterMap_append]
  obtain ⟨e, r⟩ := x
  cases e with
  | listdir covmaps => exact absurd rfl (h covmaps)
  | _ => exact List.append_nil _

/-- Without the semaphore no process can enter. -/
theorem Outside.blocked {st : Storing} {i : Nat} (h : Outside S (st.procs i)) (hsem : st.shared.sem = 0) :
    st.turn CovMaps.handle i = none := by
  obtain ⟨calls, -, hp⟩ := h
  cases calls with
  | nil => simp only [Processes.turn, hp, stores, pure]
  | cons call calls =>
      have hop : st.procs i = .op .p fun _ => (mapStep (.listdir call.2) >>= fun _ =>
        storeListed call.1 call.2 >>= fun _ => mapStep .v) >>= fun _ => stores calls := hp
      have hh : st.shared.handle .p = none := if_neg (by omega)
      simp only [Processes.turn, hop, hh]

/-- **A whole call** adds its maps and its entry in the log. -/
theorem Merged.call (hfiles : S.SharedOk files) (h : Merged S files s calls) {call : Nat × List MapFile}
    (hok : S.Ok call.2)
    (hs : (storeListed call.1 call.2).eval CovMaps.handle s = some ((), s')) :
    Merged S files s' (calls ++ [call.2]) ∧ s'.sem = s.sem := by
  rw [storeListed_eval hfiles hok h.maps] at hs
  cases hs
  have hflat : calls.flatten ++ call.2 = (calls ++ [call.2]).flatten := by simp
  refine ⟨⟨congrArg (S.merged files) hflat, ?_⟩, rfl⟩
  show (s.log ++ [_]).map Prod.snd = _
  rw [List.map_append, h.sums, List.length_append, List.length_singleton, List.range_succ, List.map_append]
  congr 1
  · refine List.map_congr_left fun k hk => ?_
    have hk := List.mem_range.mp hk
    rw [List.take_append_of_le_length (by omega)]
  · show [S.total _] = [S.total _]
    rw [hflat, List.take_of_length_le (by simp)]

/-- The steps inside leave the semaphore alone. -/
theorem handle_quiet {e : MapEff} {r : MapAns e} (h : s.handle e = some (r, s')) (hp : e ≠ .p)
    (hv : e ≠ .v) : s'.sem = s.sem := by
  cases e with
  | p => exact absurd rfl hp
  | v => exact absurd rfl hv
  | raise => exact r.elim
  | _ =>
      cases h
      rfl

theorem storeListed_quiet (iters : Nat) (covmaps : List MapFile) :
    (storeListed iters covmaps).Only fun e => e ≠ .p ∧ e ≠ .v ∧ ∀ covmaps, e ≠ .listdir covmaps := by
  have hraise : ∀ o : Option (List Nat),
      (orRaise o).Only fun e => e ≠ .p ∧ e ≠ .v ∧ ∀ covmaps, e ≠ .listdir covmaps := by
    intro o
    cases o with
    | none => exact .op _ _ ⟨nofun, nofun, nofun⟩ fun x => nomatch x
    | some a => exact .ret a
  have hfiles : ∀ covSum, (storeFiles covSum covmaps).Only fun e =>
      e ≠ .p ∧ e ≠ .v ∧ ∀ covmaps, e ≠ .listdir covmaps := by
    induction covmaps with
    | nil => exact fun covSum => .ret covSum
    | cons f fs ih =>
        intro covSum
        refine Only.bind ?_ fun covSum => ih covSum
        refine (only_ask ⟨nofun, nofun, nofun⟩).bind fun line => (hraise _).bind fun covMap =>
          (hraise _).bind fun covMap => (only_ask ⟨nofun, nofun, nofun⟩).bind fun _ => .ret _
  exact (hfiles 0).bind fun covSum => only_ask ⟨nofun, nofun, nofun⟩

variable {st st' : Storing} {i : Nat}

/-- The processes outside after one of them has gone on. -/
theorem outside_update {p : MapProgram Unit} (hout : ∀ j, j ≠ i → Outside S (st.procs j)) (j : Nat)
    (hji : j ≠ i) : Outside S (Function.update st.procs i p j) := by
  rw [Function.update_of_ne hji]
  exact hout j hji

/-- **One step of any process keeps the invariant.** -/
theorem MapsInv.turn (hfiles : S.SharedOk files) (h : MapsInv S files st)
    (hs : st.turn CovMaps.handle i = some st') : MapsInv S files st' := by
  cases h with
  | free hout hsem hm =>
      obtain ⟨calls, hcalls, hp⟩ := hout i
      obtain ⟨e, k, r, shared, hop, hhandle, rfl⟩ := Processes.turn_eq_some hs
      rw [hp] at hop
      cases calls with
      | nil => cases hop
      | cons call calls =>
          cases hop
          have hh : st.shared.handle .p = some ((), { st.shared with sem := st.shared.sem - 1 }) :=
            if_pos (by omega)
          rw [hh] at hhandle
          cases hhandle
          refine .entered i call (stores calls) (outside_update fun j _ => hout j)
            ⟨calls, fun c hc => hcalls c (List.mem_cons_of_mem _ hc), rfl⟩
            (hcalls call List.mem_cons_self) ?_ (by show st.shared.sem - 1 = 0; omega) ?_
          · show Function.update st.procs i _ i = _
            rw [Function.update_self]
            show ((mapStep (.listdir call.2) >>= fun _ => storeListed call.1 call.2 >>= fun _ =>
              mapStep .v) >>= fun _ => stores calls : MapProgram Unit) = _
            simp only [assoc]
          · show Merged S files _ (stored (st.events ++ [(i, ⟨.p, ()⟩)]))
            rw [stored_append st.events i ⟨.p, ()⟩ fun _ => nofun]
            exact ⟨hm.maps, hm.sums⟩
  | entered k call rest hout hrest hok hi hsem hm =>
      by_cases hik : i = k
      · subst hik
        obtain ⟨e, k, r, shared, hop, hhandle, rfl⟩ := Processes.turn_eq_some hs
        rw [hi] at hop
        cases hop
        cases hhandle
        refine .storing i call rest (storeListed call.1 call.2) st.shared (stored st.events)
          (outside_update hout) hrest hok (Function.update_self ..) (storeListed_quiet ..) hsem rfl hm ?_ hsem
        show stored (st.events ++ [(i, ⟨.listdir call.2, ()⟩)]) = _
        rw [stored, List.filterMap_append]
        rfl
      · rw [(hout i hik).blocked hsem] at hs
        cases hs
  | storing k call rest q s₀ prev hout hrest hok hi hquiet hsem hq hm hstored hsem₀ =>
      by_cases hik : i = k
      · subst hik
        obtain ⟨e, k, r, shared, hop, hhandle, rfl⟩ := Processes.turn_eq_some hs
        rw [hi] at hop
        cases hquiet with
        | ret u =>
            -- the call is complete
            cases hop
            cases hhandle
            obtain ⟨hm', -⟩ := hm.call hfiles hok hq.symm
            refine .free (fun j => ?_) (by show st.shared.sem + 1 = 1; omega) ?_
            · by_cases hji : j = i
              · subst hji
                show Outside S (Function.update st.procs j rest j)
                rw [Function.update_self]
                exact hrest
              · exact outside_update hout j hji
            · show Merged S files _ (stored (st.events ++ [(i, ⟨.v, ()⟩)]))
              rw [stored_append st.events i ⟨.v, ()⟩ (fun _ => nofun), hstored]
              exact ⟨hm'.maps, hm'.sums⟩
        | op e k he hk =>
            cases hop
            refine .storing i call rest (k r) s₀ prev (outside_update hout) hrest hok
              (Function.update_self ..) (hk r) ?_ ?_ hm ?_ hsem₀
            · show shared.sem = 0
              rw [handle_quiet hhandle he.1 he.2.1, hsem]
            · rw [← hq]
              show _ = (st.shared.handle e).bind _
              rw [hhandle]
              rfl
            · show stored (st.events ++ [(i, ⟨e, r⟩)]) = _
              rw [stored_append _ _ _ he.2.2, hstored]
      · rw [(hout i hik).blocked hsem] at hs
        cases hs

end Steps

/-! ## 6. Every run -/

section Run

variable {S : MapNames} {files : Text → Option Text} {st : Storing} {tr : List (Storing × Nat × Storing)}

theorem merging_sharedOk (h : (merging S files).Trace tr st) : S.SharedOk files := by
  induction h with
  | start s h => exact h.1
  | step _ _ _ _ ih => exact ih

theorem merging_inv (h : (merging S files).Trace tr st) : MapsInv S files st := by
  have hfiles := merging_sharedOk h
  refine h.inv (P := fun _ _ => True) (fun s hs => ?_) (fun s i s' hI _ hs => hI.turn hfiles hs)
    fun _ _ => trivial
  obtain ⟨-, hshared, hout, hevents⟩ := hs
  refine .free hout (by rw [hshared]) ?_
  rw [hshared, hevents]
  exact ⟨rfl, rfl⟩

/-- What runs through alone up to its V opens the semaphore. -/
theorem opens_of_eval {i : Nat} {q rest : MapProgram Unit} {s : CovMaps}
    (hi : st.procs i = do
      q
      mapStep .v
      rest)
    (hq : q.eval CovMaps.handle st.shared = some ((), s)) (hsem : s.sem = 0) :
    ∃ n, (exec (Processes.turn CovMaps.handle) st (List.replicate n i)).2.shared.sem = 1 := by
  have hv : (q >>= fun _ => mapStep .v : MapProgram Unit).eval CovMaps.handle st.shared =
      some ((), { s with sem := s.sem + 1 }) := by
    rw [eval_bind, hq]
    rfl
  rw [← assoc] at hi
  obtain ⟨n, events, hexec⟩ := Processes.exec_eval hi hv
  refine ⟨n, ?_⟩
  rw [hexec]
  show s.sem + 1 = 1
  rw [hsem]

/-- A call that is under way goes through. -/
theorem MapsInv.completes (hfiles : S.SharedOk files) (h : MapsInv S files st) :
    ∃ i n, (exec (Processes.turn CovMaps.handle) st (List.replicate n i)).2.shared.sem = 1 := by
  cases h with
  | free _ hsem => exact ⟨0, 0, hsem⟩
  | entered i call rest _ _ hok hi hsem hm =>
      have heval : (mapStep (.listdir call.2) >>= fun _ => storeListed call.1 call.2 :
          MapProgram Unit).eval CovMaps.handle st.shared = _ := storeListed_eval hfiles hok hm.maps call.1
      exact ⟨i, opens_of_eval hi heval hsem⟩
  | storing i call rest q s₀ prev _ _ hok hi _ hsem hq hm _ hsem₀ =>
      have heval := storeListed_eval hfiles hok hm.maps call.1
      exact ⟨i, opens_of_eval hi (hq.trans heval) hsem₀⟩

/-- **Coverage maps merge without loss.** In every run of any number of processes, whatever the order of
    their steps: while no call is under way, the shared maps are the pointwise OR of those at first and of
    all maps stored so far; every call has logged the number of ones after it, and these numbers do not
    decrease; another run that has stored the same maps, in another order or some of them more often, has
    come to the same shared maps. A call that is under way goes through. -/
theorem covmaps_merged (h : (merging S files).Trace tr st) :
    (st.shared.sem = 1 →
      st.shared.files = S.merged files (stored st.events).flatten ∧
      st.shared.log.map Prod.snd = ((List.range (stored st.events).length).map fun k =>
        S.total (S.merged files ((stored st.events).take (k + 1)).flatten)) ∧
      (st.shared.log.map Prod.snd).Pairwise (· ≤ ·) ∧
      ∀ tr' st', (merging S files).Trace tr' st' → st'.shared.sem = 1 →
        (∀ f, f ∈ (stored st'.events).flatten ↔ f ∈ (stored st.events).flatten) →
        st'.shared.files = st.shared.files) ∧
    ∃ i n, (exec (Processes.turn CovMaps.handle) st (List.replicate n i)).2.shared.sem = 1 := by
  have hfiles := merging_sharedOk h
  have hfree : ∀ {tr st}, (merging S files).Trace tr st → st.shared.sem = 1 →
      Merged S files st.shared (stored st.events) := by
    intro tr st h hsem
    cases merging_inv h with
    | free _ _ hm => exact hm
    | entered _ _ _ _ _ _ _ h₀ => omega
    | storing _ _ _ _ _ _ _ _ _ _ _ h₀ => omega
  refine ⟨fun hsem => ?_, (merging_inv h).completes hfiles⟩
  have hm := hfree h hsem
  refine ⟨hm.maps, hm.sums, ?_, fun tr' st' h' hsem' hsame => ?_⟩
  · rw [hm.sums, List.pairwise_map]
    refine List.pairwise_lt_range.imp fun {k l} hkl => ?_
    -- the calls up to the earlier entry are the first of those up to the later one
    have hsplit : (stored st.events).take (l + 1) =
        (stored st.events).take (k + 1) ++ ((stored st.events).take (l + 1)).drop (k + 1) := by
      have := List.take_append_drop (k + 1) ((stored st.events).take (l + 1))
      rwa [List.take_take, Nat.min_eq_left (by omega), eq_comm] at this
    rw [hsplit, List.flatten_append]
    exact total_merged_le hfiles _
  · rw [hm.maps, (hfree h' hsem').maps]
    exact merged_congr hsame

end Run

/-! ## 7. Two processes -/

namespace CovMapsDemo

/-- One map with two bits. -/
def names : MapNames := ⟨["top".toList], fun _ => 2, by decide⟩

/-- The map of each process, stored once. -/
def calls : Nat → List (Nat × List MapFile)
  | 0 => [(5000, [("top".toList, "01".toList)])]
  | 1 => [(5000, [("top".toList, "10".toList)])]
  | _ => []

def start : Storing := ⟨⟨1, fun _ => none, []⟩, fun i => stores (calls i), []⟩

/-- The second process is the first to store. -/
def order : List Nat := List.replicate 6 1 ++ List.replicate 6 0

theorem start_init : (merging names fun _ => none).init start := by
  refine ⟨nofun, rfl, fun i => ⟨calls i, fun call hcall => ?_, rfl⟩, rfl⟩
  match i with
  | 0 | 1 =>
      rw [List.mem_singleton.mp hcall]
      refine ⟨.refl _, fun f hf => ?_⟩
      rw [List.mem_singleton.mp hf]
      exact ⟨rfl, by decide⟩
  | _ + 2 => cases hcall

theorem order_trace : (merging names fun _ => none).Trace (exec (Processes.turn CovMaps.handle) start order).1
    (exec (Processes.turn CovMaps.handle) start order).2 :=
  Machine.exec_trace (f := Processes.turn CovMaps.handle) (fun _ _ _ h => h) (.start _ start_init) order

end CovMapsDemo

/-- Two processes with one bit each: both bits are set, and the coverage goes from one to two. -/
theorem covmaps_merged_two :
    (exec (Processes.turn CovMaps.handle) CovMapsDemo.start CovMapsDemo.order).2.shared.files "top".toList =
        some "11".toList ∧
      (exec (Processes.turn CovMaps.handle) CovMapsDemo.start CovMapsDemo.order).2.shared.log =
        [(5000, 1), (5000, 2)] ∧
      ((exec (Processes.turn CovMaps.handle) CovMapsDemo.start
        CovMapsDemo.order).2.shared.log.map Prod.snd).Pairwise (· ≤ ·) :=
  ⟨by decide, by decide, ((covmaps_merged CovMapsDemo.order_trace).1 (by decide)).2.2.1⟩

end Difuzz.Fuzzer
