import Svoe.TaskGraph.BlockPaths
import Svoe.TaskGraph.StoreFeature

/-!
# The store of feature blocks

A task that is to store a block asks whether a row with its hash is there; if not, it writes the
frame to the block's path, and then adds the row.  `delete_features` reads the paths of the
features' rows, deletes the files, and then the rows.  Tasks of any number of runs and deletions
take their steps in any order; one that is killed takes no further step.

* `storeInv_step` : the invariant of the store, from one step to the next.
* `files_of_row` : the file of a row, if there is one, holds the frame that the row was made for,
  and without deletions there is one; files outside of the feature catalogue are left alone.
* `files_dataSourceBlock` : data source blocks are such files.
* `canEnd` : every task can be brought to its end.
* `outcome_of_run` : a task only fails to add its row if another frame has been made for its block.
-/

namespace Svoe

open Portion Transition

variable {κ α : Type} [DecidableEq κ]

/-! ### Rows -/

/-- `make_feature_block_metadata`. -/
def storedRowOf (names : BlockNames κ) (hashDf : List (Event α) → String) (task : FeatureTask κ α) :
    Except PyError (StoredRow κ) :=
  (makeFeatureBlockMetadata hashDf task).map fun row =>
    { key := row.key
      startTs := row.interval.lower
      endTs := row.interval.upper
      day := row.day
      path := names.makeFeatureBlockPath row.key row.day row.interval.lower row.hash
      hash := row.hash }

/-- The columns of the primary key that differ between blocks. -/
def StoredRow.primaryKey (row : StoredRow κ) : Context κ (ClosedInterval ℚ) × ℤ :=
  (row.context, row.day)

/-- `store_block_metadata_batch`, of one row. -/
def storeRow (table : List (StoredRow κ)) (row : StoredRow κ) :
    Except PyError (List (StoredRow κ)) :=
  if row.hash ∈ table.map StoredRow.hash then .ok table
  else if ∃ r ∈ table, r.path = row.path ∨ r.primaryKey = row.primaryKey then .error .integrity
  else .ok (table ++ [row])

/-! ### The store -/

/-- Where a task is that has calculated a block to be stored. -/
inductive StorePhase where
  /-- Before `feature_block_exists`. -/
  | checking
  /-- Before `store_df`. -/
  | writing
  /-- Before `store_block_metadata_batch`. -/
  | cataloguing
  | stored
  | failed
  deriving DecidableEq

/-- The task has stored its block, or failed to. -/
def StorePhase.isOver : StorePhase → Bool
  | stored | failed => true
  | checking | writing | cataloguing => false

/-- A task that has calculated a block to be stored, and the row it has made for it. -/
structure BlockWriter (κ α : Type) where
  task : FeatureTask κ α
  row : StoredRow κ
  phase : StorePhase

/-- Where a call of `delete_features` is. -/
inductive Deletion (κ : Type) where
  /-- The rows have been selected. -/
  | selected (keys : List κ) (paths : List String)
  /-- The files have been deleted. -/
  | filesDeleted (keys : List κ)
  | finished

/-- The files, the table of the rows, and what is going on. -/
structure BlockStore (κ α : Type) where
  files : String → Option (List (Event α))
  table : List (StoredRow κ) := []
  writers : List (BlockWriter κ α) := []
  deletions : List (Deletion κ) := []

/-- A step of a task, or of a deletion. -/
inductive StoreAction (κ α : Type) where
  | calculated (task : FeatureTask κ α)
  | blockExists (i : ℕ)
  | storeDf (i : ℕ)
  | storeRow (i : ℕ)
  | selectRows (keys : List κ)
  | deleteFiles (i : ℕ)
  | deleteRows (i : ℕ)

namespace BlockStore

/-- The task with the given number is in the given phase from now on. -/
def setPhase (s : BlockStore κ α) (i : ℕ) (w : BlockWriter κ α) (phase : StorePhase) :
    BlockStore κ α :=
  { s with writers := s.writers.set i { w with phase := phase } }

/-- A step; `none` if the task or the deletion is not there. -/
def step (names : BlockNames κ) (hashDf : List (Event α) → String) (s : BlockStore κ α) :
    StoreAction κ α → Option (BlockStore κ α)
  | .calculated task =>
    match storedRowOf names hashDf task with
    -- the task raises before it has done anything
    | .error _ => some s
    | .ok row => some { s with writers := s.writers ++ [⟨task, row, .checking⟩] }
  | .blockExists i =>
    match s.writers[i]? with
    | some ⟨task, row, .checking⟩ =>
      some (s.setPhase i ⟨task, row, .checking⟩
        (if row.hash ∈ s.table.map StoredRow.hash then .stored else .writing))
    | _ => none
  | .storeDf i =>
    match s.writers[i]? with
    | some ⟨task, row, .writing⟩ =>
      some { s.setPhase i ⟨task, row, .writing⟩ .cataloguing with
        files := fun p => if p = row.path then some task.df else s.files p }
    | _ => none
  | .storeRow i =>
    match s.writers[i]? with
    | some ⟨task, row, .cataloguing⟩ =>
      match Svoe.storeRow s.table row with
      | .error _ => some (s.setPhase i ⟨task, row, .cataloguing⟩ .failed)
      | .ok table => some { s.setPhase i ⟨task, row, .cataloguing⟩ .stored with table := table }
    | _ => none
  | .selectRows keys =>
    some { s with deletions := s.deletions ++
      [.selected keys ((s.table.filter fun r => r.key ∈ keys).map fun r => r.path)] }
  | .deleteFiles i =>
    match s.deletions[i]? with
    | some (.selected keys paths) =>
      -- `delete_files` raises for more than a thousand paths
      if 1000 < paths.length then some { s with deletions := s.deletions.set i .finished }
      else some { s with
        files := fun p => if p ∈ paths then none else s.files p
        deletions := s.deletions.set i (.filesDeleted keys) }
    | _ => none
  | .deleteRows i =>
    match s.deletions[i]? with
    | some (.filesDeleted keys) =>
      some { s with
        table := s.table.filter fun r => r.key ∉ keys
        deletions := s.deletions.set i .finished }
    | _ => none

/-! ### What a step does -/

/-- The tasks that are to store a block, with their rows. -/
def made (s : BlockStore κ α) : List (FeatureTask κ α × StoredRow κ) :=
  s.writers.map fun w => (w.task, w.row)

/-- The row cannot be added: its hash is new, but its path or its primary key is not. -/
def Conflict (table : List (StoredRow κ)) (row : StoredRow κ) : Prop :=
  row.hash ∉ table.map StoredRow.hash ∧
    ∃ r ∈ table, r.path = row.path ∨ r.primaryKey = row.primaryKey

/-- What a step can do. -/
inductive Effect (names : BlockNames κ) (hashDf : List (Event α) → String) (s : BlockStore κ α) :
    BlockStore κ α → Prop
  | nothing : Effect names hashDf s s
  | begin {task : FeatureTask κ α} {row : StoredRow κ}
      (hrow : storedRowOf names hashDf task = .ok row) :
      Effect names hashDf s { s with writers := s.writers ++ [⟨task, row, .checking⟩] }
  | move {i : ℕ} {w : BlockWriter κ α} {phase : StorePhase} (hw : s.writers[i]? = some w)
      (hphase : phase ≠ .cataloguing)
      (hstored : phase = .stored → w.row.hash ∈ s.table.map StoredRow.hash)
      (hfailed : phase = .failed → Conflict s.table w.row) :
      Effect names hashDf s (s.setPhase i w phase)
  | write {i : ℕ} {w : BlockWriter κ α} (hw : s.writers[i]? = some w) :
      Effect names hashDf s { s.setPhase i w .cataloguing with
        files := fun p => if p = w.row.path then some w.task.df else s.files p }
  | catalogue {i : ℕ} {w : BlockWriter κ α} (hw : s.writers[i]? = some w)
      (hphase : w.phase = .cataloguing) (hhash : w.row.hash ∉ s.table.map StoredRow.hash) :
      Effect names hashDf s { s.setPhase i w .stored with table := s.table ++ [w.row] }
  | select {keys : List κ} {paths : List String} (hpaths : ∀ p ∈ paths, ∃ r ∈ s.table, r.path = p) :
      Effect names hashDf s { s with deletions := s.deletions ++ [.selected keys paths] }
  | deleteFiles {i : ℕ} {keys : List κ} {paths : List String}
      (hi : s.deletions[i]? = some (.selected keys paths)) :
      Effect names hashDf s { s with
        files := fun p => if p ∈ paths then none else s.files p
        deletions := s.deletions.set i (.filesDeleted keys) }
  | endDeletion {i : ℕ} {d : Deletion κ} {table : List (StoredRow κ)}
      (hi : s.deletions[i]? = some d) (htable : table.Sublist s.table) :
      Effect names hashDf s { s with table := table, deletions := s.deletions.set i .finished }

variable {names : BlockNames κ} {hashDf : List (Event α) → String} {s s' : BlockStore κ α}
  {a : StoreAction κ α}

/-- **A step has one of these effects.** -/
theorem effect_of_step (h : step names hashDf s a = some s') : Effect names hashDf s s' := by
  cases a with
  | calculated task =>
    simp only [step] at h
    split at h
    · obtain rfl := Option.some.inj h
      exact .nothing
    · next row hrow =>
      obtain rfl := Option.some.inj h
      exact .begin hrow
  | blockExists i =>
    simp only [step] at h
    split at h
    · next task row hw =>
      obtain rfl := Option.some.inj h
      by_cases hhash : row.hash ∈ s.table.map StoredRow.hash
      · rw [if_pos hhash]
        exact .move hw (by simp) (fun _ => hhash) (by simp)
      · rw [if_neg hhash]
        exact .move hw (by simp) (by simp) (by simp)
    · cases h
  | storeDf i =>
    simp only [step] at h
    split at h
    · next task row hw =>
      obtain rfl := Option.some.inj h
      exact .write hw
    · cases h
  | storeRow i =>
    simp only [step] at h
    split at h
    · next task row hw =>
      unfold Svoe.storeRow at h
      by_cases hhash : row.hash ∈ s.table.map StoredRow.hash
      · rw [if_pos hhash] at h
        obtain rfl := Option.some.inj h
        exact .move hw (by simp) (fun _ => hhash) (by simp)
      · rw [if_neg hhash] at h
        split_ifs at h with hconflict
        · obtain rfl := Option.some.inj h
          exact .move hw (by simp) (by simp) fun _ => ⟨hhash, hconflict⟩
        · obtain rfl := Option.some.inj h
          exact .catalogue hw rfl hhash
    · cases h
  | selectRows keys =>
    obtain rfl := Option.some.inj h
    refine .select fun p hp => ?_
    obtain ⟨r, hr, rfl⟩ := List.mem_map.1 hp
    exact ⟨r, List.mem_of_mem_filter hr, rfl⟩
  | deleteFiles i =>
    simp only [step] at h
    split at h
    · next keys paths hi =>
      split_ifs at h
      · obtain rfl := Option.some.inj h
        exact .endDeletion hi (List.Sublist.refl _)
      · obtain rfl := Option.some.inj h
        exact .deleteFiles hi
    · cases h
  | deleteRows i =>
    simp only [step] at h
    split at h
    · next keys hi =>
      obtain rfl := Option.some.inj h
      exact .endDeletion hi List.filter_sublist
    · cases h

/-! ### The invariant -/

omit [DecidableEq κ] in
theorem made_setPhase {i : ℕ} {w : BlockWriter κ α} (hw : s.writers[i]? = some w)
    (phase : StorePhase) : (s.setPhase i w phase).made = s.made := by
  obtain ⟨hi, rfl⟩ := List.getElem?_eq_some_iff.1 hw
  exact List.ext_getElem (by simp [made, setPhase]) fun j _ _ => by
    simp only [made, setPhase, List.getElem_map, List.getElem_set]
    split_ifs with hij
    · subst hij
      rfl
    · rfl

omit [DecidableEq κ] in
theorem made_append (v : BlockWriter κ α) :
    ({ s with writers := s.writers ++ [v] } : BlockStore κ α).made = s.made ++ [(v.task, v.row)] :=
  List.map_append

/-- A path in the feature catalogue. -/
def IsFeaturePath (path : String) : Prop := featureCatalogRoot.toList <+: path.toList

/-- The store, with the files `files` at first: every row was made for a block, a file of the
feature catalogue holds the frame of a block with its path, and without deletions every row has its
file. -/
structure StoreInv (names : BlockNames κ) (hashDf : List (Event α) → String)
    (files : String → Option (List (Event α))) (s : BlockStore κ α) : Prop where
  rows : ∀ q ∈ s.made, storedRowOf names hashDf q.1 = .ok q.2
  table : ∀ r ∈ s.table, ∃ q ∈ s.made, q.2 = r
  frames : ∀ p df, IsFeaturePath p → s.files p = some df → ∃ q ∈ s.made, q.2.path = p ∧ q.1.df = df
  outside : ∀ p, ¬ IsFeaturePath p → s.files p = files p
  selected : ∀ keys paths, .selected keys paths ∈ s.deletions → ∀ p ∈ paths, IsFeaturePath p
  present : s.deletions = [] → (∀ r ∈ s.table, s.files r.path ≠ none) ∧
    ∀ w ∈ s.writers, w.phase = .cataloguing → s.files w.row.path ≠ none

omit [DecidableEq κ] in
theorem storedRowOf_spec {task : FeatureTask κ α} {row : StoredRow κ}
    (h : storedRowOf names hashDf task = .ok row) :
    row.context = task.context ∧ row.hash = hashDf task.df ∧
      row.path = names.makeFeatureBlockPath row.key row.day row.startTs row.hash := by
  obtain ⟨r, hr, rfl⟩ := map_eq_ok_iff.1 h
  have hhash : r.hash = hashDf task.df := by
    unfold makeFeatureBlockMetadata at hr
    split at hr
    · dsimp only at hr
      split_ifs at hr
      obtain rfl := Except.ok.inj hr
      rfl
    · cases hr
  obtain ⟨hkey, hinterval⟩ := FeatureRun.of_makeFeatureBlockMetadata hr
  refine ⟨?_, hhash, rfl⟩
  obtain ⟨⟨key, I⟩, df⟩ := task
  obtain rfl : r.key = key := hkey
  obtain rfl : r.interval = I := hinterval
  rfl

omit [DecidableEq κ] in
theorem isFeaturePath_of_storedRowOf {task : FeatureTask κ α} {row : StoredRow κ}
    (h : storedRowOf names hashDf task = .ok row) : IsFeaturePath row.path := by
  rw [(storedRowOf_spec h).2.2]
  exact names.prefix_makeFeatureBlockPath

omit [DecidableEq κ] in
theorem mem_made {i : ℕ} {w : BlockWriter κ α} (hw : s.writers[i]? = some w) :
    (w.task, w.row) ∈ s.made := List.mem_map_of_mem (List.mem_of_getElem? hw)

omit [DecidableEq κ] in
/-- A deletion that takes a step is still there. -/
theorem set_deletions_ne_nil {i : ℕ} {d d' : Deletion κ} (hi : s.deletions[i]? = some d) :
    s.deletions.set i d' ≠ [] := fun hnone => by
  rw [(List.set_eq_nil_iff i d').1 hnone] at hi
  cases hi

variable {files : String → Option (List (Event α))}

omit [DecidableEq κ] in
/-- What holds of the tasks holds behind a step of one of them, if it holds of that one. -/
theorem forall_writers_setPhase {i : ℕ} {w : BlockWriter κ α} {phase : StorePhase}
    {P : BlockWriter κ α → Prop} (h : ∀ v ∈ s.writers, P v) (hw : P { w with phase := phase }) :
    ∀ v ∈ (s.setPhase i w phase).writers, P v := fun v hv => by
  rcases List.mem_or_eq_of_mem_set hv with hv | rfl
  · exact h v hv
  · exact hw

/-- **The invariant**, from one step to the next. -/
theorem storeInv_step (hs : StoreInv names hashDf files s) (h : step names hashDf s a = some s') :
    StoreInv names hashDf files s' := by
  cases effect_of_step h with
  | nothing => exact hs
  | @begin task row hrow =>
    have hmade := made_append (s := s) ⟨task, row, .checking⟩
    refine ⟨hmade ▸ List.forall_mem_append.2 ⟨hs.rows, List.forall_mem_singleton.2 hrow⟩,
      fun r hr => ?_, fun p df hp hdf => ?_, hs.outside, hs.selected, fun hnone => ?_⟩
    · obtain ⟨q, hq, heq⟩ := hs.table r hr
      exact ⟨q, hmade ▸ List.mem_append_left _ hq, heq⟩
    · obtain ⟨q, hq, heq⟩ := hs.frames p df hp hdf
      exact ⟨q, hmade ▸ List.mem_append_left _ hq, heq⟩
    · obtain ⟨htable, hwriters⟩ := hs.present hnone
      exact ⟨htable, List.forall_mem_append.2 ⟨hwriters, List.forall_mem_singleton.2 (by simp)⟩⟩
  | @move i w phase hw hphase _ _ =>
    have hmade := made_setPhase hw phase
    exact ⟨hmade ▸ hs.rows, hmade ▸ hs.table, hmade ▸ hs.frames, hs.outside, hs.selected,
      fun hnone => ⟨(hs.present hnone).1,
        forall_writers_setPhase (hs.present hnone).2 fun h => absurd h hphase⟩⟩
  | @write i w hw =>
    have hmade := made_setPhase hw .cataloguing
    have hrow := isFeaturePath_of_storedRowOf (hs.rows _ (mem_made hw))
    refine ⟨hmade ▸ hs.rows, hmade ▸ hs.table, fun p df hp hdf => ?_, fun p hp => ?_, hs.selected,
      fun hnone => ⟨fun r hr => ?_, ?_⟩⟩
    · dsimp only at hdf
      split_ifs at hdf with heq
      · obtain rfl := Option.some.inj hdf
        exact ⟨_, hmade ▸ mem_made hw, heq.symm, rfl⟩
      · exact hmade ▸ hs.frames p df hp hdf
    · dsimp only
      rw [if_neg fun heq : p = w.row.path => hp (heq ▸ hrow)]
      exact hs.outside p hp
    · dsimp only
      split_ifs
      · exact Option.some_ne_none _
      · exact (hs.present hnone).1 r hr
    · refine forall_writers_setPhase (fun v hv hphase => ?_) fun _ => ?_
      · dsimp only
        split_ifs
        · exact Option.some_ne_none _
        · exact (hs.present hnone).2 v hv hphase
      · dsimp only
        rw [if_pos rfl]
        exact Option.some_ne_none _
  | @catalogue i w hw hphase _ =>
    have hmade := made_setPhase hw .stored
    refine ⟨hmade ▸ hs.rows, List.forall_mem_append.2 ⟨hmade ▸ hs.table, ?_⟩, hmade ▸ hs.frames,
      hs.outside, hs.selected,
      fun hnone => ⟨List.forall_mem_append.2 ⟨(hs.present hnone).1, ?_⟩, ?_⟩⟩
    · exact List.forall_mem_singleton.2 ⟨_, hmade ▸ mem_made hw, rfl⟩
    · exact List.forall_mem_singleton.2
        ((hs.present hnone).2 w (List.mem_of_getElem? hw) hphase)
    · exact forall_writers_setPhase (hs.present hnone).2 fun h => absurd h (by simp)
  | @select keys paths hpaths =>
    refine ⟨hs.rows, hs.table, hs.frames, hs.outside, fun keys' paths' hmem p hp => ?_,
      fun hnone => absurd hnone (by simp)⟩
    rcases List.mem_append.1 hmem with hmem | hmem
    · exact hs.selected keys' paths' hmem p hp
    · obtain ⟨rfl, rfl⟩ := Deletion.selected.inj (List.mem_singleton.1 hmem)
      obtain ⟨r, hr, rfl⟩ := hpaths p hp
      obtain ⟨q, hq, rfl⟩ := hs.table r hr
      exact isFeaturePath_of_storedRowOf (hs.rows q hq)
  | @deleteFiles i keys paths hi =>
    refine ⟨hs.rows, hs.table, fun p df hp hdf => ?_, fun p hp => ?_,
      fun keys' paths' hmem => hs.selected keys' paths' ?_, fun hnone => ?_⟩
    · dsimp only at hdf
      split_ifs at hdf
      exact hs.frames p df hp hdf
    · dsimp only
      rw [if_neg fun hmem : p ∈ paths =>
        hp (hs.selected keys paths (List.mem_of_getElem? hi) p hmem)]
      exact hs.outside p hp
    · exact (List.mem_or_eq_of_mem_set hmem).resolve_right (by simp)
    · exact absurd hnone (set_deletions_ne_nil hi)
  | @endDeletion i d table hi htable =>
    refine ⟨hs.rows, fun r hr => hs.table r (htable.subset hr), hs.frames, hs.outside,
      fun keys' paths' hmem => hs.selected keys' paths' ?_, fun hnone => ?_⟩
    · exact (List.mem_or_eq_of_mem_set hmem).resolve_right (by simp)
    · exact absurd hnone (set_deletions_ne_nil hi)

/-- What has become of the tasks: no hash has two rows, a task that has failed has met the row of
another frame for its block, and without deletions there is a row for one that is done. -/
structure OutcomeInv (s : BlockStore κ α) : Prop where
  hashes : (s.table.map StoredRow.hash).Nodup
  failed : ∀ w ∈ s.writers, w.phase = .failed →
    ∃ q ∈ s.made, q.2.primaryKey = w.row.primaryKey ∧ q.2.hash ≠ w.row.hash
  stored : s.deletions = [] → ∀ w ∈ s.writers, w.phase = .stored →
    w.row.hash ∈ s.table.map StoredRow.hash

omit [DecidableEq κ] in
/-- Rows with the same path have the same hash. -/
theorem hash_eq_of_path_eq (hhash : ∀ df, '-' ∉ (hashDf df).toList) {task task' : FeatureTask κ α}
    {row row' : StoredRow κ} (h : storedRowOf names hashDf task = .ok row)
    (h' : storedRowOf names hashDf task' = .ok row') (hpath : row.path = row'.path) :
    row.key = row'.key ∧ row.hash = row'.hash := by
  obtain ⟨-, hrow, hp⟩ := storedRowOf_spec h
  obtain ⟨-, hrow', hp'⟩ := storedRowOf_spec h'
  rw [hp, hp'] at hpath
  exact names.makeFeatureBlockPath_inj (hrow ▸ hhash _) (hrow' ▸ hhash _) hpath

/-- **The outcomes**, from one step to the next. -/
theorem outcomeInv_step (hhash : ∀ df, '-' ∉ (hashDf df).toList)
    (hs : StoreInv names hashDf files s) (ho : OutcomeInv s) (h : step names hashDf s a = some s') :
    OutcomeInv s' := by
  cases effect_of_step h with
  | nothing => exact ho
  | @begin task row hrow =>
    have hmade := made_append (s := s) ⟨task, row, .checking⟩
    refine ⟨ho.hashes, List.forall_mem_append.2 ⟨fun w hw hphase => ?_, ?_⟩, fun hnone =>
      List.forall_mem_append.2 ⟨ho.stored hnone, ?_⟩⟩
    · obtain ⟨q, hq, hrest⟩ := ho.failed w hw hphase
      exact ⟨q, hmade ▸ List.mem_append_left _ hq, hrest⟩
    · exact List.forall_mem_singleton.2 (by simp)
    · exact List.forall_mem_singleton.2 (by simp)
  | @move i w phase hw _ hstored hfailed =>
    have hmade := made_setPhase hw phase
    refine ⟨ho.hashes, forall_writers_setPhase (hmade ▸ ho.failed) fun hphase => ?_, fun hnone =>
      forall_writers_setPhase (ho.stored hnone) hstored⟩
    obtain ⟨hnew, r, hr, heq⟩ := hfailed hphase
    obtain ⟨q, hq, rfl⟩ := hs.table r hr
    have hne : q.2.hash ≠ w.row.hash := fun h => hnew (h ▸ List.mem_map_of_mem hr)
    -- a row with the path has the hash, so that it is the primary key that is there
    rcases heq with hpath | hkey
    · exact absurd (hash_eq_of_path_eq hhash (hs.rows q hq) (hs.rows _ (mem_made hw)) hpath).2 hne
    · exact ⟨q, hmade ▸ hq, hkey, hne⟩
  | @write i w hw =>
    have hmade := made_setPhase hw .cataloguing
    exact ⟨ho.hashes, forall_writers_setPhase (hmade ▸ ho.failed) (by simp), fun hnone =>
      forall_writers_setPhase (ho.stored hnone) (by simp)⟩
  | @catalogue i w hw _ hnew =>
    have hmade := made_setPhase hw .stored
    refine ⟨?_, forall_writers_setPhase (hmade ▸ ho.failed) (by simp), fun hnone =>
      forall_writers_setPhase (fun v hv hphase => ?_) fun _ => ?_⟩
    · rw [List.map_append, List.map_singleton, ← List.concat_eq_append]
      exact ho.hashes.concat hnew
    · exact List.map_append ▸ List.mem_append_left _ (ho.stored hnone v hv hphase)
    · exact List.mem_map_of_mem (List.mem_append_right _ (List.mem_singleton_self _))
  | select _ => exact ⟨ho.hashes, ho.failed, fun hnone => absurd hnone (by simp)⟩
  | @deleteFiles i keys paths hi =>
    exact ⟨ho.hashes, ho.failed, fun hnone => absurd hnone (set_deletions_ne_nil hi)⟩
  | @endDeletion i d table hi htable =>
    exact ⟨ho.hashes.sublist (htable.map _), ho.failed, fun hnone =>
      absurd hnone (set_deletions_ne_nil hi)⟩

/-! ### The ends of tasks -/

omit [DecidableEq κ] in
theorem getElem?_setPhase {i : ℕ} {w : BlockWriter κ α} (hw : s.writers[i]? = some w)
    (phase : StorePhase) :
    (s.setPhase i w phase).writers[i]? = some { w with phase := phase } :=
  List.getElem?_set_self (List.getElem?_eq_some_iff.1 hw).1

/-- The task with the given number can be brought to its end. -/
def CanEnd (names : BlockNames κ) (hashDf : List (Event α) → String) (s : BlockStore κ α) (i : ℕ) :
    Prop :=
  ∃ as s' w, run (step names hashDf) s as = some s' ∧ s'.writers[i]? = some w ∧ w.phase.isOver

variable {i : ℕ} {task : FeatureTask κ α} {row : StoredRow κ} {phase : StorePhase}

theorem canEnd_of_isOver (hw : s.writers[i]? = some ⟨task, row, phase⟩) (hphase : phase.isOver) :
    CanEnd names hashDf s i :=
  ⟨[], s, _, run_nil, hw, hphase⟩

theorem CanEnd.of_step (h : step names hashDf s a = some s') (hend : CanEnd names hashDf s' i) :
    CanEnd names hashDf s i := by
  obtain ⟨as, t, w, hrun, hw⟩ := hend
  exact ⟨a :: as, t, w, run_cons_eq_some_iff.2 ⟨s', h, hrun⟩, hw⟩

theorem canEnd_of_cataloguing (hw : s.writers[i]? = some ⟨task, row, .cataloguing⟩) :
    CanEnd names hashDf s i := by
  have hstep : ∃ s' phase, step names hashDf s (.storeRow i) = some s' ∧
      s'.writers[i]? = some ⟨task, row, phase⟩ ∧ phase.isOver := by
    simp only [step, hw]
    cases Svoe.storeRow s.table row with
    | error _ => exact ⟨_, .failed, rfl, getElem?_setPhase hw _, rfl⟩
    | ok table => exact ⟨_, .stored, rfl, getElem?_setPhase hw _, rfl⟩
  obtain ⟨s', phase, h, hw', hphase⟩ := hstep
  exact .of_step h (canEnd_of_isOver hw' hphase)

theorem canEnd_of_writing (hw : s.writers[i]? = some ⟨task, row, .writing⟩) :
    CanEnd names hashDf s i := by
  have hstep : ∃ s', step names hashDf s (.storeDf i) = some s' ∧
      s'.writers[i]? = some ⟨task, row, .cataloguing⟩ := by
    simp only [step, hw]
    exact ⟨_, rfl, getElem?_setPhase hw _⟩
  obtain ⟨s', h, hw'⟩ := hstep
  exact .of_step h (canEnd_of_cataloguing hw')

theorem canEnd_of_checking (hw : s.writers[i]? = some ⟨task, row, .checking⟩) :
    CanEnd names hashDf s i := by
  have hstep : ∃ s', step names hashDf s (.blockExists i) = some s' ∧
      s'.writers[i]? = some ⟨task, row,
        if row.hash ∈ s.table.map StoredRow.hash then .stored else .writing⟩ := by
    simp only [step, hw]
    exact ⟨_, rfl, getElem?_setPhase hw _⟩
  obtain ⟨s', h, hw'⟩ := hstep
  refine .of_step h ?_
  split_ifs at hw'
  · exact canEnd_of_isOver hw' rfl
  · exact canEnd_of_writing hw'

/-- Every task can be brought to its end, whatever the others have done. -/
theorem canEnd {w : BlockWriter κ α} (hw : s.writers[i]? = some w) : CanEnd names hashDf s i := by
  obtain ⟨task, row, phase⟩ := w
  cases phase with
  | checking => exact canEnd_of_checking hw
  | writing => exact canEnd_of_writing hw
  | cataloguing => exact canEnd_of_cataloguing hw
  | stored => exact canEnd_of_isOver hw rfl
  | failed => exact canEnd_of_isOver hw rfl

/-! ### Runs -/

variable {as : List (StoreAction κ α)}

theorem storeInv_of_run (hfiles : ∀ p, IsFeaturePath p → files p = none)
    (h : run (step names hashDf) { files := files } as = some s) :
    StoreInv names hashDf files s :=
  invariant_of_run (fun _ _ _ hs h => storeInv_step hs h)
    { rows := List.forall_mem_nil _
      table := List.forall_mem_nil _
      frames := fun p df hp hdf => by simp [hfiles p hp] at hdf
      outside := fun _ _ => rfl
      selected := fun _ _ hmem => absurd hmem List.not_mem_nil
      present := fun _ => ⟨List.forall_mem_nil _, List.forall_mem_nil _⟩ } h

theorem invariants_of_run (hfiles : ∀ p, IsFeaturePath p → files p = none)
    (hhash : ∀ df, '-' ∉ (hashDf df).toList)
    (h : run (step names hashDf) { files := files } as = some s) :
    StoreInv names hashDf files s ∧ OutcomeInv s :=
  invariant_of_run (I := fun s => StoreInv names hashDf files s ∧ OutcomeInv s)
    (fun _ _ _ hs h => ⟨storeInv_step hs.1 h, outcomeInv_step hhash hs.1 hs.2 h⟩)
    ⟨storeInv_of_run hfiles run_nil, List.nodup_nil, fun _ hw => absurd hw List.not_mem_nil,
      fun _ _ hw => absurd hw List.not_mem_nil⟩ h

/-- **The files of the rows.**  Whatever tasks and deletions have done, in whatever order: every row
was made for a task, its file can only hold the frame of that task, if no two frames of a feature
have the same hash, and without deletions it does.  Files outside of the feature catalogue are as
they were. -/
theorem files_of_row (hfiles : ∀ p, IsFeaturePath p → files p = none)
    (hhash : ∀ df, '-' ∉ (hashDf df).toList)
    (h : run (step names hashDf) { files := files } as = some s)
    (hcollision : ∀ q ∈ s.made, ∀ q' ∈ s.made, q.1.context.featureKey = q'.1.context.featureKey →
      hashDf q.1.df = hashDf q'.1.df → q.1.df = q'.1.df) :
    (∀ row ∈ s.table, ∃ task, (task, row) ∈ s.made ∧ storedRowOf names hashDf task = .ok row ∧
      (∀ df, s.files row.path = some df → df = task.df) ∧
      (s.deletions = [] → s.files row.path = some task.df)) ∧
    ∀ p, ¬ IsFeaturePath p → s.files p = files p := by
  have hs := storeInv_of_run hfiles h
  refine ⟨fun row hrow => ?_, hs.outside⟩
  obtain ⟨⟨task, row⟩, hq, rfl⟩ := hs.table row hrow
  have hok := hs.rows _ hq
  have hheld : ∀ df, s.files row.path = some df → df = task.df := fun df hdf => by
    obtain ⟨q', hq', hpath, rfl⟩ := hs.frames _ df (isFeaturePath_of_storedRowOf hok) hdf
    have hok' := hs.rows _ hq'
    obtain ⟨hkey, heq⟩ := hash_eq_of_path_eq hhash hok' hok hpath
    obtain ⟨hcontext, hrow, -⟩ := storedRowOf_spec hok
    obtain ⟨hcontext', hrow', -⟩ := storedRowOf_spec hok'
    refine hcollision _ hq' _ hq ?_ ?_
    · rw [← hcontext, ← hcontext']
      exact hkey
    · rw [← hrow, ← hrow', heq]
  refine ⟨task, hq, hok, hheld, fun hnone => ?_⟩
  obtain ⟨df, hdf⟩ := Option.ne_none_iff_exists'.1 ((hs.present hnone).1 row hrow)
  rw [hdf, hheld df hdf]

/-- The names of two features. -/
def midAndSpread : BlockNames Bool where
  key mid := if mid then "mid" else "spread"
  featureDefinition mid := if mid then "MidPriceFD" else "RelativeBidAskSpreadFD"
  dayStr _ := "1970-01-01"
  key_injective := by decide
  field_key mid := by cases mid <;> exact ⟨by decide, by decide⟩
  field_featureDefinition mid := by cases mid <;> exact ⟨by decide, by decide⟩
  field_dayStr _ := ⟨by decide, by decide⟩

/-- A hash that tells a frame of one row from the other ones. -/
def oneRowHash (df : List (Event ℚ)) : String := if df.length = 1 then "1" else "2"

theorem dash_oneRowHash (df : List (Event ℚ)) : '-' ∉ (oneRowHash df).toList := by
  unfold oneRowHash
  split_ifs <;> decide

/-- A task with a frame of one row. -/
def oneRow (mid : Bool) : FeatureTask Bool ℚ := ⟨⟨mid, ⟨0, 2⟩⟩, [⟨0, 5⟩]⟩

/-- A task with a frame of two rows, on the same interval. -/
def twoRows (mid : Bool) : FeatureTask Bool ℚ := ⟨⟨mid, ⟨0, 2⟩⟩, [⟨0, 5⟩, ⟨1, 6⟩]⟩

/-- Two features are stored at a time. -/
theorem files_of_row_midAndSpread : ∃ s : BlockStore Bool ℚ,
    run (step midAndSpread oneRowHash) { files := fun _ => none }
        [.calculated (oneRow true), .calculated (twoRows false), .blockExists 1, .blockExists 0,
          .storeDf 0, .storeDf 1, .storeRow 1, .storeRow 0] = some s ∧
      s.table.length = 2 ∧ ∀ row ∈ s.table, ∃ task, (task, row) ∈ s.made ∧
        s.files row.path = some task.df := by
  have hrun : (run (step midAndSpread oneRowHash) { files := fun _ => none }
      [.calculated (oneRow true), .calculated (twoRows false), .blockExists 1, .blockExists 0,
        .storeDf 0, .storeDf 1, .storeRow 1, .storeRow 0]).map
        (fun s => (s.table.length, s.deletions.length)) = some (2, 0) := by
    decide +kernel
  have hmade : (run (step midAndSpread oneRowHash) { files := fun _ => none }
      [.calculated (oneRow true), .calculated (twoRows false), .blockExists 1, .blockExists 0,
        .storeDf 0, .storeDf 1, .storeRow 1, .storeRow 0]).map
        (fun s => s.made.map fun q => (q.1.context.featureKey, q.1.df)) =
      some [(true, (oneRow true).df), (false, (twoRows false).df)] := by
    decide +kernel
  obtain ⟨s, hs, heq⟩ := Option.map_eq_some_iff.1 hrun
  obtain ⟨hlength, hdeletions⟩ := Prod.mk.inj heq
  rw [hs, Option.map_some, Option.some.injEq] at hmade
  have hcollision : ∀ q ∈ s.made, ∀ q' ∈ s.made, q.1.context.featureKey = q'.1.context.featureKey →
      oneRowHash q.1.df = oneRowHash q'.1.df → q.1.df = q'.1.df := fun q hq q' hq' hkey _ => by
    have hof : ∀ q ∈ s.made, q.1.context.featureKey = true ∧ q.1.df = (oneRow true).df ∨
        q.1.context.featureKey = false ∧ q.1.df = (twoRows false).df := fun q hq => by
      simpa [hmade] using List.mem_map_of_mem
        (f := fun q : FeatureTask Bool ℚ × StoredRow Bool => (q.1.context.featureKey, q.1.df)) hq
    rcases hof q hq with ⟨h1, h2⟩ | ⟨h1, h2⟩ <;> rcases hof q' hq' with ⟨h1', h2'⟩ | ⟨h1', h2'⟩
    · rw [h2, h2']
    · simp [h1, h1'] at hkey
    · simp [h1, h1'] at hkey
    · rw [h2, h2']
  refine ⟨s, hs, hlength, fun row hrow => ?_⟩
  obtain ⟨task, hmem, -, -, hfile⟩ :=
    (files_of_row (fun _ _ => rfl) dash_oneRowHash hs hcollision).1 row hrow
  exact ⟨task, hmem, hfile (List.eq_nil_of_length_eq_zero hdeletions)⟩

/-- A data source block is left alone, whatever is stored and deleted. -/
theorem files_dataSourceBlock (hfiles : ∀ p, IsFeaturePath p → files p = none)
    (h : run (step names hashDf) { files := files } as = some s)
    {ownerId dataSourceDefinition key compaction day : String}
    (hfields : ∀ v ∈ [ownerId, dataSourceDefinition, key, compaction, day], PathField v)
    (startTs : ℚ) (hash : String) :
    s.files (buildDataSourceBlockPath dataCatalogRoot ownerId dataSourceDefinition key compaction
        day startTs hash) =
      files (buildDataSourceBlockPath dataCatalogRoot ownerId dataSourceDefinition key compaction
        day startTs hash) :=
  (storeInv_of_run hfiles h).outside _ (not_prefix_buildDataSourceBlockPath hfields startTs hash)

/-- **What becomes of a task.**  A task only fails to add its row if another frame has been made for
its block, without deletions a task that is done has a row with the hash of its frame, and every
task can be brought to its end. -/
theorem outcome_of_run (hfiles : ∀ p, IsFeaturePath p → files p = none)
    (hhash : ∀ df, '-' ∉ (hashDf df).toList)
    (h : run (step names hashDf) { files := files } as = some s) {w : BlockWriter κ α}
    (hw : s.writers[i]? = some w) :
    (w.phase = .failed → ∃ q ∈ s.made, q.1.context = w.task.context ∧
      hashDf q.1.df ≠ hashDf w.task.df) ∧
    (s.deletions = [] → w.phase = .stored → ∃ row ∈ s.table, row.hash = hashDf w.task.df) ∧
    CanEnd names hashDf s i := by
  obtain ⟨hs, ho⟩ := invariants_of_run hfiles hhash h
  have hmem := List.mem_of_getElem? hw
  obtain ⟨hcontext, hrow, -⟩ := storedRowOf_spec (hs.rows _ (mem_made hw))
  refine ⟨fun hphase => ?_, fun hnone hphase => ?_, canEnd hw⟩
  · obtain ⟨q, hq, hkey, hne⟩ := ho.failed w hmem hphase
    obtain ⟨hcontext', hrow', -⟩ := storedRowOf_spec (hs.rows q hq)
    exact ⟨q, hq, hcontext'.symm.trans ((Prod.mk.inj hkey).1.trans hcontext),
      hrow' ▸ hrow ▸ hne⟩
  · obtain ⟨row, hrow', heq⟩ := List.mem_map.1 (ho.stored hnone w hmem hphase)
    exact ⟨row, hrow', heq.trans hrow⟩

/-- Two frames for one block: the second task writes its file, and then cannot add its row. -/
theorem outcome_of_run_twoFrames : ∃ s : BlockStore Bool ℚ,
    run (step midAndSpread oneRowHash) { files := fun _ => none }
        [.calculated (oneRow true), .calculated (twoRows true), .blockExists 0, .blockExists 1,
          .storeDf 0, .storeDf 1, .storeRow 0, .storeRow 1] = some s ∧
      ∃ w, s.writers[1]? = some w ∧ w.phase = .failed ∧ ∃ q ∈ s.made,
        q.1.context = w.task.context ∧ oneRowHash q.1.df ≠ oneRowHash w.task.df := by
  have hrun : (run (step midAndSpread oneRowHash) { files := fun _ => none }
      [.calculated (oneRow true), .calculated (twoRows true), .blockExists 0, .blockExists 1,
        .storeDf 0, .storeDf 1, .storeRow 0, .storeRow 1]).map
        (fun s => s.writers[1]?.map BlockWriter.phase) = some (some .failed) := by
    decide +kernel
  obtain ⟨s, hs, heq⟩ := Option.map_eq_some_iff.1 hrun
  obtain ⟨w, hw, hphase⟩ := Option.map_eq_some_iff.1 heq
  exact ⟨s, hs, w, hw, hphase, (outcome_of_run (fun _ _ => rfl) dash_oneRowHash hs hw).1 hphase⟩

end BlockStore

end Svoe
