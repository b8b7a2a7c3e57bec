import Svoe.Common.Frame
import Svoe.Transition.Basic

/-!
# The catalogue of ingested files

A raw file is split into chunks, and every chunk becomes a row of the catalogue that names the file
and the number of its chunks.  `filterCryptotickBatch` takes a file for ingested when it finds as
many rows of it as the first one says; `storeBlockMetadataBatch` leaves out the rows whose content
hash the catalogue has already, of whichever file.

* `storeBlockMetadataBatch_eq_ok`, `mem_filterCryptotickBatch` : what the two calls do.
* `Ingest.step` : the tasks of any number of runs, some of which crash.
* `Ingest.converges_iff` : every stored file has all its rows and is filtered out from then on if
  and only if no file is stored of which a chunk has the hash of a catalogued row.
-/

namespace Svoe

open Transition

/-- The columns of a row of the catalogue that storing and filtering read.  `sourcePath`, `splitId`
and `numSplits` are in `extras`. -/
structure BlockRow (P H : Type*) where
  hash : H
  sourcePath : P
  splitId : ℕ
  numSplits : ℕ
  deriving DecidableEq

section Client

variable {P H : Type*} [DecidableEq P] [DecidableEq H]

/-- `store_block_metadata_batch`.  The column `hash` is unique; a call that fails commits nothing. -/
def storeBlockMetadataBatch (catalogue batch : List (BlockRow P H)) :
    Except PyError (List (BlockRow P H)) :=
  match batch with
  -- `batch[0]`
  | [] => .error .index
  | _ =>
    let hashes := batch.map BlockRow.hash
    let existing := catalogue.filter fun row => row.hash ∈ hashes
    let existingHashes := existing.map BlockRow.hash
    let batch := batch.filter fun row => row.hash ∉ existingHashes
    if (batch.map BlockRow.hash).Nodup then .ok (catalogue ++ batch) else .error .integrity

/-- The rows found for a file are not all it should have. -/
def isIncomplete (rows : List (BlockRow P H)) (path : P) : Bool :=
  let rowsForItem := rows.filter fun row => row.sourcePath = path
  match rowsForItem with
  | [] => true
  | row :: _ => rowsForItem.length ≠ row.numSplits

/-- `filter_cryptotick_batch`, for the paths of a batch's items. -/
def filterCryptotickBatch (catalogue : List (BlockRow P H)) (paths : List P) : List P :=
  let rows := catalogue.filter fun row => row.sourcePath ∈ paths
  if rows = [] then paths else paths.filter (isIncomplete rows)

omit [DecidableEq H] in
theorem mem_filterCryptotickBatch {catalogue : List (BlockRow P H)} {paths : List P} {path : P} :
    path ∈ filterCryptotickBatch catalogue paths ↔
      path ∈ paths ∧ isIncomplete catalogue path = true := by
  have hrows : path ∈ paths → isIncomplete (catalogue.filter fun row => row.sourcePath ∈ paths)
      path = isIncomplete catalogue path := fun hp => by
    have hfilter : ((catalogue.filter fun row => row.sourcePath ∈ paths).filter
        fun row => row.sourcePath = path) = catalogue.filter fun row => row.sourcePath = path := by
      rw [List.filter_filter]
      refine List.filter_congr fun row _ => ?_
      by_cases hrow : row.sourcePath = path <;> simp [hrow, hp]
    rw [isIncomplete, isIncomplete, hfilter]
  unfold filterCryptotickBatch
  simp only
  split_ifs with hnil
  · refine ⟨fun hp => ⟨hp, ?_⟩, And.left⟩
    rw [← hrows hp, hnil]
    rfl
  · rw [List.mem_filter]
    exact and_congr_right fun hp => by rw [hrows hp]

omit [DecidableEq H] in
/-- A file without rows is not complete. -/
theorem isIncomplete_of_forall_ne {rows : List (BlockRow P H)} {path : P}
    (h : ∀ row ∈ rows, row.sourcePath ≠ path) : isIncomplete rows path = true := by
  have hnil : (rows.filter fun row => row.sourcePath = path) = [] :=
    List.filter_eq_nil_iff.2 fun row hrow => by simpa using h row hrow
  rw [isIncomplete, hnil]

omit [DecidableEq H] in
/-- Rows of other files do not matter. -/
theorem isIncomplete_append_of_forall_ne {rows rows' : List (BlockRow P H)} {path : P}
    (h : ∀ row ∈ rows', row.sourcePath ≠ path) :
    isIncomplete (rows ++ rows') path = isIncomplete rows path := by
  have hnil : (rows'.filter fun row => row.sourcePath = path) = [] :=
    List.filter_eq_nil_iff.2 fun row hrow => by simpa using h row hrow
  rw [isIncomplete, isIncomplete, List.filter_append, hnil, List.append_nil]

omit [DecidableEq H] in
/-- The first rows of a file are complete if they are as many as each of them says. -/
theorem isIncomplete_append_eq_false_iff {rows rows' : List (BlockRow P H)} {path : P} {n : ℕ}
    (h : ∀ row ∈ rows, row.sourcePath ≠ path) (hn : 0 < n)
    (h' : ∀ row ∈ rows', row.sourcePath = path ∧ row.numSplits = n) :
    isIncomplete (rows ++ rows') path = false ↔ rows'.length = n := by
  have hnil : (rows.filter fun row => row.sourcePath = path) = [] :=
    List.filter_eq_nil_iff.2 fun row hrow => by simpa using h row hrow
  have hself : (rows'.filter fun row => row.sourcePath = path) = rows' :=
    List.filter_eq_self.2 fun row hrow => by simpa using (h' row hrow).1
  rw [isIncomplete, List.filter_append, hnil, hself, List.nil_append]
  cases rows' with
  | nil => simpa using hn.ne
  | cons row rows' => simp [(h' row List.mem_cons_self).2]

omit [DecidableEq P] in
/-- **What storing does**, if it does not raise: the rows with new hashes are appended. -/
theorem storeBlockMetadataBatch_eq_ok {catalogue batch catalogue' : List (BlockRow P H)}
    (h : storeBlockMetadataBatch catalogue batch = .ok catalogue') :
    batch ≠ [] ∧
      catalogue' = catalogue ++ batch.filter fun row => row.hash ∉ catalogue.map BlockRow.hash := by
  unfold storeBlockMetadataBatch at h
  cases batch with
  | nil => cases h
  | cons row batch =>
    simp only at h
    split_ifs at h
    refine ⟨List.cons_ne_nil _ _, (Except.ok.inj h).symm.trans (congrArg _ ?_)⟩
    refine List.filter_congr fun row' hrow' => ?_
    -- the query looks for the hashes of the batch only
    have hmem : row'.hash ∈ (row :: batch).map BlockRow.hash := List.mem_map_of_mem hrow'
    simp only [List.mem_map, List.mem_filter, decide_eq_true_eq, decide_eq_decide] at hmem ⊢
    refine not_congr ⟨?_, ?_⟩
    · rintro ⟨r, ⟨hr, -⟩, heq⟩
      exact ⟨r, hr, heq⟩
    · rintro ⟨r, hr, heq⟩
      exact ⟨r, ⟨hr, by rw [heq]; exact hmem⟩, heq⟩

end Client

/-! ### Runs -/

/-- The items that `load_split_catalog_store_df` passes on for a file. -/
def metadataItems {P F H : Type*} (hashDf : F → H) (path : P) (splits : List F) :
    List (BlockRow P H) :=
  splits.mapIdx fun splitId split => ⟨hashDf split, path, splitId, splits.length⟩

section MetadataItems

variable {P F H : Type*} {hashDf : F → H} {path : P} {splits : List F}

theorem length_metadataItems : (metadataItems hashDf path splits).length = splits.length :=
  List.length_mapIdx

theorem map_hash_metadataItems :
    (metadataItems hashDf path splits).map BlockRow.hash = splits.map hashDf := by
  refine List.ext_getElem (by simp [metadataItems]) fun i _ _ => ?_
  simp [metadataItems]

theorem of_mem_metadataItems {row : BlockRow P H} (h : row ∈ metadataItems hashDf path splits) :
    row.sourcePath = path ∧ row.numSplits = splits.length := by
  obtain ⟨i, hi, rfl⟩ := List.mem_mapIdx.1 h
  exact ⟨rfl, rfl⟩

end MetadataItems

/-- The ingest of the files `P` with the chunk sizes `C`, over any number of runs. -/
structure Ingest (P C H : Type*) where
  catalogue : List (BlockRow P H)
  /-- The tasks that are created and have not reached the database. -/
  pending : List (P × C)
  /-- The tasks whose `store_block_metadata_batch` has returned. -/
  stored : List (P × C)

/-- What happens next.  A call of `store_block_metadata_batch` that raises is a `crash`. -/
inductive IngestAction (P C : Type*) where
  /-- A batch of a run is filtered, and tasks are created for what is left. -/
  | schedule (paths : List P) (chunkSizeKb : C)
  | store (path : P) (chunkSizeKb : C)
  | crash (path : P) (chunkSizeKb : C)

namespace Ingest

variable {P C F H : Type*}

def init : Ingest P C H := ⟨[], [], []⟩

section Step

variable [DecidableEq P] [DecidableEq C] [DecidableEq H]

/-- One step.  The paths of a run are distinct, and its tasks are over before the next one. -/
def step (hashDf : F → H) (splits : P → C → List F) (s : Ingest P C H) :
    IngestAction P C → Option (Ingest P C H)
  | .schedule paths chunkSizeKb =>
    if paths.Nodup ∧ ∀ path ∈ paths, path ∉ s.pending.map Prod.fst then
      let filtered := filterCryptotickBatch s.catalogue paths
      some { s with pending := s.pending ++ filtered.map (·, chunkSizeKb) }
    else none
  | .store path chunkSizeKb =>
    if (path, chunkSizeKb) ∈ s.pending then
      match storeBlockMetadataBatch s.catalogue
        (metadataItems hashDf path (splits path chunkSizeKb)) with
      | .ok catalogue => some
          { catalogue
            pending := s.pending.erase (path, chunkSizeKb)
            stored := s.stored ++ [(path, chunkSizeKb)] }
      | .error _ => none
    else none
  | .crash path chunkSizeKb =>
    if (path, chunkSizeKb) ∈ s.pending then
      some { s with pending := s.pending.erase (path, chunkSizeKb) }
    else none

end Step

/-- The catalogue has a row for every split of a stored file, and the filter leaves out the stored
files and no others. -/
structure Converged [DecidableEq P] (hashDf : F → H) (splits : P → C → List F)
    (s : Ingest P C H) : Prop where
  rows : ∀ t ∈ s.stored, metadataItems hashDf t.1 (splits t.1 t.2) ⊆ s.catalogue
  excluded : ∀ t ∈ s.stored, ∀ paths, t.1 ∉ filterCryptotickBatch s.catalogue paths
  kept : ∀ path ∉ s.stored.map Prod.fst, ∀ paths, path ∈ paths →
    path ∈ filterCryptotickBatch s.catalogue paths

/-- The condition on a step: no chunk that is stored has the hash of a row. -/
def Fresh (hashDf : F → H) (splits : P → C → List F) (s : Ingest P C H) : IngestAction P C → Prop
  | .store path chunkSizeKb =>
    ∀ split ∈ splits path chunkSizeKb, hashDf split ∉ s.catalogue.map BlockRow.hash
  | _ => True

instance [DecidableEq H] {hashDf : F → H} {splits : P → C → List F} (s : Ingest P C H) :
    (a : IngestAction P C) → Decidable (Fresh hashDf splits s a)
  | .store path chunkSizeKb =>
    inferInstanceAs (Decidable (∀ split ∈ splits path chunkSizeKb, _))
  | .schedule _ _ | .crash _ _ => .isTrue trivial

/-- What holds as long as the ingest converges. -/
structure Inv (s : Ingest P C H) : Prop where
  distinct : (s.pending.map Prod.fst).Nodup
  notStored : ∀ path ∈ s.pending.map Prod.fst, path ∉ s.stored.map Prod.fst
  sources : ∀ row ∈ s.catalogue, row.sourcePath ∈ s.stored.map Prod.fst

theorem inv_init : (init : Ingest P C H).Inv where
  distinct := List.nodup_nil
  notStored _ h := absurd h List.not_mem_nil
  sources _ h := absurd h List.not_mem_nil

/-! ### Steps -/

variable [DecidableEq P] {hashDf : F → H} {splits : P → C → List F} {s s' : Ingest P C H}

theorem converged_init : (init : Ingest P C H).Converged hashDf splits where
  rows _ h := absurd h List.not_mem_nil
  excluded _ h := absurd h List.not_mem_nil
  kept _ _ _ hp := mem_filterCryptotickBatch.2 ⟨hp, rfl⟩

/-- Only the catalogue and the stored files matter. -/
theorem Converged.of_same (h : s.Converged hashDf splits) (hcat : s'.catalogue = s.catalogue)
    (hstored : s'.stored = s.stored) : s'.Converged hashDf splits := by
  obtain ⟨hrows, hexcluded, hkept⟩ := h
  refine ⟨?_, ?_, ?_⟩ <;> rw [hcat, hstored] <;> assumption

/-- The filter leaves out exactly the complete files. -/
theorem Converged.of_isIncomplete
    (hrows : ∀ t ∈ s.stored, metadataItems hashDf t.1 (splits t.1 t.2) ⊆ s.catalogue)
    (hexcluded : ∀ t ∈ s.stored, isIncomplete s.catalogue t.1 = false)
    (hsources : ∀ row ∈ s.catalogue, row.sourcePath ∈ s.stored.map Prod.fst) :
    s.Converged hashDf splits where
  rows := hrows
  excluded t ht paths hmem := by
    have hinc := (mem_filterCryptotickBatch.1 hmem).2
    rw [hexcluded t ht] at hinc
    cases hinc
  kept path hpath paths hp := by
    refine mem_filterCryptotickBatch.2 ⟨hp, isIncomplete_of_forall_ne fun row hrow heq => ?_⟩
    exact hpath (heq ▸ hsources row hrow)

theorem Converged.isIncomplete_eq_false (h : s.Converged hashDf splits) {t : P × C}
    (ht : t ∈ s.stored) : isIncomplete s.catalogue t.1 = false := by
  by_contra hne
  exact h.excluded t ht [t.1]
    (mem_filterCryptotickBatch.2 ⟨List.mem_singleton_self _, by simpa using hne⟩)

/-- What is scheduled in a converged ingest has not been stored. -/
theorem Inv.schedule (h : s.Inv) (hc : s.Converged hashDf splits) {paths : List P}
    (hnodup : paths.Nodup) (hnew : ∀ path ∈ paths, path ∉ s.pending.map Prod.fst)
    (chunkSizeKb : C) :
    ({ s with pending := s.pending ++
        (filterCryptotickBatch s.catalogue paths).map (·, chunkSizeKb) } : Ingest P C H).Inv := by
  have hfst : ((filterCryptotickBatch s.catalogue paths).map (·, chunkSizeKb)).map Prod.fst =
      filterCryptotickBatch s.catalogue paths := by
    rw [List.map_map]
    exact List.map_id _
  have hsub : (filterCryptotickBatch s.catalogue paths).Sublist paths := by
    unfold filterCryptotickBatch
    simp only
    split_ifs
    · exact List.Sublist.refl _
    · exact List.filter_sublist
  refine ⟨?_, fun path hpath => ?_, h.sources⟩
  · rw [List.map_append, hfst]
    refine List.Nodup.append h.distinct (hnodup.sublist hsub) fun path hp hf => ?_
    exact hnew path (hsub.subset hf) hp
  · rw [List.map_append, hfst, List.mem_append] at hpath
    rcases hpath with hpath | hpath
    · exact h.notStored path hpath
    · intro hstored
      obtain ⟨t, ht, rfl⟩ := List.mem_map.1 hstored
      exact hc.excluded t ht paths hpath

variable [DecidableEq C]

/-- A task that is over. -/
theorem Inv.erase (h : s.Inv) (t : P × C) :
    ({ s with pending := s.pending.erase t } : Ingest P C H).Inv where
  distinct := h.distinct.sublist (List.erase_sublist.map _)
  notStored path hpath := h.notStored path ((List.erase_sublist.map _).subset hpath)
  sources := h.sources

variable [DecidableEq H]

/-- The state after the rows of a task are stored. -/
def afterStore (hashDf : F → H) (splits : P → C → List F) (s : Ingest P C H) (t : P × C) :
    Ingest P C H where
  catalogue := s.catalogue ++ (metadataItems hashDf t.1 (splits t.1 t.2)).filter fun row =>
    row.hash ∉ s.catalogue.map BlockRow.hash
  pending := s.pending.erase t
  stored := s.stored ++ [t]

theorem Inv.store (h : s.Inv) {t : P × C} (ht : t ∈ s.pending) :
    (s.afterStore hashDf splits t).Inv where
  distinct := h.distinct.sublist (List.erase_sublist.map _)
  notStored path hpath := by
    rw [afterStore, List.map_append, List.mem_append, not_or]
    refine ⟨h.notStored path ((List.erase_sublist.map _).subset hpath), ?_⟩
    -- no other task is for the same path
    rw [List.map_singleton, List.mem_singleton]
    rintro rfl
    have hnodup := ((List.perm_cons_erase ht).map Prod.fst).nodup_iff.1 h.distinct
    exact (List.nodup_cons.1 hnodup).1 hpath
  sources row hrow := by
    rw [afterStore, List.map_append, List.mem_append]
    rcases List.mem_append.1 hrow with hrow | hrow
    · exact .inl (h.sources row hrow)
    · rw [(of_mem_metadataItems (List.mem_filter.1 hrow).1).1]
      exact .inr (List.mem_singleton_self _)

/-- **Storing keeps the ingest converged exactly if the hashes are new.** -/
theorem Inv.converged_store_iff (h : s.Inv) (hc : s.Converged hashDf splits) {t : P × C}
    (ht : t ∈ s.pending) (hne : splits t.1 t.2 ≠ []) :
    (s.afterStore hashDf splits t).Converged hashDf splits ↔
      ∀ split ∈ splits t.1 t.2, hashDf split ∉ s.catalogue.map BlockRow.hash := by
  have hnew : t.1 ∉ s.stored.map Prod.fst := h.notStored t.1 (List.mem_map_of_mem ht)
  have hsource : ∀ row ∈ s.catalogue, row.sourcePath ≠ t.1 := fun row hrow heq =>
    hnew (heq ▸ h.sources row hrow)
  constructor
  · intro hc' split hsplit
    have hmem : hashDf split ∈ (metadataItems hashDf t.1 (splits t.1 t.2)).map BlockRow.hash := by
      rw [map_hash_metadataItems]
      exact List.mem_map_of_mem hsplit
    obtain ⟨row, hrow, heq⟩ := List.mem_map.1 hmem
    rw [← heq]
    -- the row cannot have been there before, so it has passed the filter
    rcases List.mem_append.1 (hc'.rows t (by simp [afterStore]) hrow) with hold | hadded
    · exact absurd (of_mem_metadataItems hrow).1 (hsource row hold)
    · exact of_decide_eq_true (List.mem_filter.1 hadded).2
  · intro hfresh
    have hall : (metadataItems hashDf t.1 (splits t.1 t.2)).filter
        (fun row => row.hash ∉ s.catalogue.map BlockRow.hash) =
          metadataItems hashDf t.1 (splits t.1 t.2) := by
      refine List.filter_eq_self.2 fun row hrow => decide_eq_true ?_
      have hmem := List.mem_map_of_mem (f := BlockRow.hash) hrow
      rw [map_hash_metadataItems] at hmem
      obtain ⟨split, hsplit, heq⟩ := List.mem_map.1 hmem
      exact heq ▸ hfresh split hsplit
    have hcat : (s.afterStore hashDf splits t).catalogue =
        s.catalogue ++ metadataItems hashDf t.1 (splits t.1 t.2) := congrArg _ hall
    refine .of_isIncomplete (fun u hu => ?_) (fun u hu => ?_) (h.store ht).sources
    · rw [hcat]
      rcases List.mem_append.1 hu with hu | hu
      · exact fun row hrow => List.mem_append_left _ (hc.rows u hu hrow)
      · obtain rfl := List.mem_singleton.1 hu
        exact List.subset_append_right _ _
    · rw [hcat]
      rcases List.mem_append.1 hu with hu | hu
      · rw [isIncomplete_append_of_forall_ne fun row hrow => ?_]
        · exact hc.isIncomplete_eq_false hu
        · rw [(of_mem_metadataItems hrow).1]
          rintro heq
          exact hnew (heq ▸ List.mem_map_of_mem hu)
      · obtain rfl := List.mem_singleton.1 hu
        exact (isIncomplete_append_eq_false_iff hsource (List.length_pos_iff.2 hne) fun row hrow =>
          of_mem_metadataItems hrow).2 length_metadataItems

/-- **Every step keeps a converged ingest so exactly if it meets the condition**, and then the
invariant too. -/
theorem step_converged (h : s.Inv) (hc : s.Converged hashDf splits) (a : IngestAction P C)
    (hstep : step hashDf splits s a = some s') :
    (s'.Converged hashDf splits → s'.Inv) ∧
      (s'.Converged hashDf splits ↔ s.Fresh hashDf splits a) := by
  cases a with
  | schedule paths chunkSizeKb =>
    simp only [step] at hstep
    split_ifs at hstep with hguard
    obtain rfl := Option.some.inj hstep
    exact ⟨fun _ => h.schedule hc hguard.1 hguard.2 chunkSizeKb,
      iff_of_true (hc.of_same rfl rfl) trivial⟩
  | store path chunkSizeKb =>
    simp only [step] at hstep
    split_ifs at hstep with ht
    cases hres : storeBlockMetadataBatch s.catalogue
      (metadataItems hashDf path (splits path chunkSizeKb)) with
    | error e => rw [hres] at hstep; cases hstep
    | ok catalogue =>
      rw [hres] at hstep
      obtain ⟨hne, rfl⟩ := storeBlockMetadataBatch_eq_ok hres
      obtain rfl : s.afterStore hashDf splits (path, chunkSizeKb) = s' := Option.some.inj hstep
      have hsplits : splits path chunkSizeKb ≠ [] := fun hnil => hne (by simp [hnil, metadataItems])
      exact ⟨fun _ => h.store ht, h.converged_store_iff hc ht hsplits⟩
  | crash path chunkSizeKb =>
    simp only [step] at hstep
    split_ifs at hstep
    obtain rfl := Option.some.inj hstep
    exact ⟨fun _ => h.erase _, iff_of_true (hc.of_same rfl rfl) trivial⟩

/-- **The ingest converges exactly if every stored chunk is new**: in all states of a run, every
split of a stored file has its row, the filter leaves the file out of every batch, and it keeps
every file that was never stored. -/
theorem converges_iff {actions : List (IngestAction P C)} {s : Ingest P C H}
    (hrun : run (step hashDf splits) init actions = some s) :
    AllStates (step hashDf splits) (Converged hashDf splits) init actions ↔
      AllSteps (step hashDf splits) (Fresh hashDf splits) init actions :=
  allStates_iff_allSteps (fun _ a _ h hc hstep => step_converged h hc a hstep) inv_init
    converged_init hrun

/-- Two files of two frames. -/
def twoFiles : String → ℕ → List (List ℕ)
  | "x", 1 => [[1], [2]]
  | "x", _ => [[1, 2]]
  | _, 1 => [[3], [4]]
  | _, _ => [[3, 4]]

/-- The task of `y` crashes, and a second run uses larger chunks. -/
def twoRuns : List (IngestAction String ℕ) :=
  [.schedule ["x", "y"] 1, .store "x" 1, .crash "y" 1, .schedule ["x", "y"] 2, .store "y" 2]

theorem converges_twoRuns :
    ∃ s, run (step id twoFiles) init twoRuns = some s ∧ s.stored = [("x", 1), ("y", 2)] ∧
      AllStates (step id twoFiles) (Converged id twoFiles) init twoRuns :=
  ⟨_, rfl, rfl, (converges_iff rfl).2 (by decide)⟩

/-- Two files with the same contents. -/
def sameContents (_ : String) (_ : ℕ) : List (List ℕ) := [[1], [2]]

def oneRun : List (IngestAction String ℕ) :=
  [.schedule ["x", "y"] 1, .store "x" 1, .store "y" 1]

theorem not_converges_sameContents :
    ∃ s, run (step id sameContents) init oneRun = some s ∧ ("y", 1) ∈ s.stored ∧
      filterCryptotickBatch s.catalogue ["x", "y"] = ["y"] ∧
      ¬ s.Converged id sameContents :=
  ⟨_, rfl, by decide, by decide, fun h => h.excluded ("y", 1) (by decide) ["x", "y"] (by decide)⟩

end Ingest

end Svoe
