import Svoe.Blocks.Basic
import Svoe.Ingest.Catalogue
import Svoe.TaskGraph.CacheActor

/-!
# Storing the blocks of features

A task of `calculate_feature` whose feature is to be stored asks the database actor whether the
block exists already, and stores a row if it does not.  Both calls go by the content hash of the
block, which knows neither the feature nor the interval: a block with the contents of one that is
catalogued for another feature, or for another interval, gets no row of its own.

The calls of the database actor run one at a time, those of different tasks in any order.

* `storeBlockMetadataBatch_eq_storeRows`, `storeRows_singleton` : the store call on feature rows.
* `FeatureRun.step` : the tasks of a run, from one call to the next.
* `FeatureRun.catalogued_of_allSteps` : once all tasks are finished, every block that was to be
  stored has its row, if no hash is ever found that has no row of the block itself.
-/

namespace Svoe

open Portion Transition

/-! ### Rows -/

/-- The columns of a feature block's row that are read here.  `startTs` and `endTs` are the
interval. -/
structure FeatureBlockRow (κ H : Type*) where
  key : κ
  interval : ClosedInterval ℚ
  day : ℤ
  hash : H
  deriving DecidableEq

/-- `store_block_metadata_batch`, for rows of either table. -/
def storeRows {R H : Type*} [DecidableEq H] (hash : R → H) (catalogue batch : List R) :
    Except PyError (List R) :=
  match batch with
  -- `batch[0]`
  | [] => .error .index
  | _ =>
    let hashes := batch.map hash
    let existing := catalogue.filter fun row => hash row ∈ hashes
    let existingHashes := existing.map hash
    let batch := batch.filter fun row => hash row ∉ existingHashes
    if (batch.map hash).Nodup then .ok (catalogue ++ batch) else .error .integrity

theorem storeBlockMetadataBatch_eq_storeRows {P H : Type*} [DecidableEq P] [DecidableEq H]
    (catalogue batch : List (BlockRow P H)) :
    storeBlockMetadataBatch catalogue batch = storeRows BlockRow.hash catalogue batch := by
  cases batch <;> rfl

/-- A single row is stored unless its hash is there. -/
theorem storeRows_singleton {R H : Type*} [DecidableEq H] (hash : R → H) (catalogue : List R)
    (row : R) : storeRows hash catalogue [row] =
      .ok (if hash row ∈ catalogue.map hash then catalogue else catalogue ++ [row]) := by
  unfold storeRows
  by_cases hmem : hash row ∈ catalogue.map hash
  · have hexists : ∃ r ∈ catalogue, hash r = hash row := List.mem_map.1 hmem
    simp [hmem, hexists]
  · have hnone : ∀ r ∈ catalogue, hash r ≠ hash row := fun r hr heq =>
      hmem (heq ▸ List.mem_map_of_mem hr)
    have hfilter : (catalogue.filter fun r => hash r = hash row) = [] :=
      List.filter_eq_nil_iff.2 fun r hr => by simpa using hnone r hr
    simp [hmem, hfilter]

/-- `feature_block_exists`. -/
def featureBlockExists {κ H : Type*} [DecidableEq H] (catalogue : List (FeatureBlockRow κ H))
    (row : FeatureBlockRow κ H) : Bool :=
  catalogue.any fun r => r.hash = row.hash

theorem featureBlockExists_eq_true_iff {κ H : Type*} [DecidableEq H]
    {catalogue : List (FeatureBlockRow κ H)} {row : FeatureBlockRow κ H} :
    featureBlockExists catalogue row = true ↔ row.hash ∈ catalogue.map FeatureBlockRow.hash := by
  simp [featureBlockExists]

/-- A task of `calculate_feature`: its context, and the frame it computes. -/
structure FeatureTask (κ α : Type*) where
  context : Context κ (ClosedInterval ℚ)
  df : List (Event α)

/-- `make_feature_block_metadata`, with `hash_df` as a function of the frame.  The days are those
of the first and the last row. -/
def makeFeatureBlockMetadata {κ α H : Type*} (hashDf : List (Event α) → H)
    (task : FeatureTask κ α) : Except PyError (FeatureBlockRow κ H) :=
  match task.df.head?, task.df.getLast? with
  | some first, some last =>
    let day : ℤ := ⌊first.timestamp / 86400⌋
    let dayEnd : ℤ := ⌊last.timestamp / 86400⌋
    if day ≠ dayEnd then
      .error (.value ("start_ts and end_ts belong to different dates: " ++ dayStr day ++ ", " ++
        dayStr dayEnd))
    else .ok ⟨task.context.featureKey, task.context.interval, day, hashDf task.df⟩
  -- `df.iloc[0]`
  | _, _ => .error .index

/-! ### Runs -/

/-- Where a task is. -/
inductive CalcStatus (κ H : Type*) where
  | pending
  /-- Before `feature_block_exists`. -/
  | checking (row : FeatureBlockRow κ H)
  /-- Before `store_block_metadata_batch`. -/
  | storing (row : FeatureBlockRow κ H)
  /-- It has returned the block it computed, which is stored by then if it is to be stored. -/
  | computed
  /-- It has returned the block another task had cached. -/
  | fetched
  /-- It has raised. -/
  | failed
  deriving DecidableEq

/-- The block has been computed by this task. -/
def CalcStatus.hasComputed {κ H : Type*} : CalcStatus κ H → Bool
  | pending | fetched => false
  | checking _ | storing _ | computed | failed => true

/-- A run: the statuses of its tasks, the blocks in the cache, and the catalogue. -/
structure FeatureRun (κ H : Type*) where
  status : ℕ → CalcStatus κ H
  cached : List (Context κ (ClosedInterval ℚ))
  catalogue : List (FeatureBlockRow κ H)

/-- A step of the task with the given number. -/
inductive CalcAction where
  /-- The cache has the block. -/
  | fetch (i : ℕ)
  /-- The block is computed, and cached if the cache actor told so. -/
  | compute (i : ℕ) (shouldCache : Bool)
  | exists (i : ℕ)
  | store (i : ℕ)

namespace FeatureRun

variable {κ α H : Type*}

/-- A run before any of its tasks, with what earlier runs have catalogued. -/
def init (catalogue : List (FeatureBlockRow κ H)) : FeatureRun κ H :=
  ⟨fun _ => .pending, [], catalogue⟩

/-- A task goes on to another status. -/
def setStatus (s : FeatureRun κ H) (i : ℕ) (status : CalcStatus κ H) : FeatureRun κ H :=
  { s with status := Function.update s.status i status }

section Step

variable [DecidableEq κ] [DecidableEq H]

/-- How a task goes on with the block it has computed: `store` says whether the feature is one of
`features_to_store`. -/
def statusBehindCompute (hashDf : List (Event α) → H) (featuresToStore : List κ)
    (task : FeatureTask κ α) : CalcStatus κ H :=
  if task.context.featureKey ∈ featuresToStore then
    match makeFeatureBlockMetadata hashDf task with
    | .ok row => .checking row
    | .error _ => .failed
  else .computed

/-- One step of a task of `calculate_feature`. -/
def step (hashDf : List (Event α) → H) (featuresToStore : List κ) (tasks : List (FeatureTask κ α))
    (s : FeatureRun κ H) : CalcAction → Option (FeatureRun κ H)
  | .fetch i =>
    match tasks[i]?, s.status i with
    | some task, .pending => if task.context ∈ s.cached then some (s.setStatus i .fetched) else none
    | _, _ => none
  | .compute i shouldCache =>
    match tasks[i]?, s.status i with
    | some task, .pending =>
      some
        { status := Function.update s.status i (statusBehindCompute hashDf featuresToStore task)
          cached := if shouldCache then task.context :: s.cached else s.cached
          catalogue := s.catalogue }
    | _, _ => none
  | .exists i =>
    match s.status i with
    | .checking row =>
      some (s.setStatus i (if featureBlockExists s.catalogue row then .computed else .storing row))
    | _ => none
  | .store i =>
    match s.status i with
    | .storing row =>
      match storeRows FeatureBlockRow.hash s.catalogue [row] with
      | .ok catalogue => some { s.setStatus i .computed with catalogue := catalogue }
      | .error _ => some (s.setStatus i .failed)
    | _ => none

end Step

/-- A row of the catalogue belongs to a block. -/
def Catalogued (s : FeatureRun κ H) (c : Context κ (ClosedInterval ℚ)) : Prop :=
  ∃ row ∈ s.catalogue, row.key = c.featureKey ∧ row.interval = c.interval

/-- The row that a call to the database actor looks up. -/
def rowOf (s : FeatureRun κ H) : CalcAction → Option (FeatureBlockRow κ H)
  | .exists i =>
    match s.status i with
    | .checking row => some row
    | _ => none
  | .store i =>
    match s.status i with
    | .storing row => some row
    | _ => none
  | _ => none

/-- The condition on a step: if the hash of the task's row is found, one of the rows belongs to
the task's block. -/
def FindsOwn (s : FeatureRun κ H) (a : CalcAction) : Prop :=
  ∀ row, s.rowOf a = some row → row.hash ∈ s.catalogue.map FeatureBlockRow.hash →
    s.Catalogued ⟨row.key, row.interval⟩

instance [DecidableEq κ] (s : FeatureRun κ H) (c : Context κ (ClosedInterval ℚ)) :
    Decidable (s.Catalogued c) :=
  inferInstanceAs (Decidable (∃ row ∈ s.catalogue, _))

instance [DecidableEq κ] [DecidableEq H] (s : FeatureRun κ H) (a : CalcAction) :
    Decidable (s.FindsOwn a) :=
  match h : s.rowOf a with
  | none => .isTrue fun row hrow => by rw [h] at hrow; cases hrow
  | some row => decidable_of_iff (row.hash ∈ s.catalogue.map FeatureBlockRow.hash →
      s.Catalogued ⟨row.key, row.interval⟩)
      ⟨fun hown row' hrow' => Option.some.inj (h.symm.trans hrow') ▸ hown, fun hown => hown row h⟩

/-! ### What holds in every run -/

variable {hashDf : List (Event α) → H} {featuresToStore : List κ} {tasks : List (FeatureTask κ α)}
  {s s' : FeatureRun κ H} {a : CalcAction}

/-- What a task with a given status has done so far. -/
def Done (featuresToStore : List κ) (s : FeatureRun κ H) (task : FeatureTask κ α) :
    CalcStatus κ H → Prop
  | .pending | .failed => True
  | .checking row | .storing row =>
    row.key = task.context.featureKey ∧ row.interval = task.context.interval
  | .computed => task.context.featureKey ∈ featuresToStore → s.Catalogued task.context
  | .fetched => task.context ∈ s.cached

/-- What holds in a run whose steps find their own rows: computed blocks are catalogued, and what
is cached has been computed by some task. -/
structure RunInv (featuresToStore : List κ) (tasks : List (FeatureTask κ α))
    (s : FeatureRun κ H) : Prop where
  done : ∀ i task, tasks[i]? = some task → s.Done featuresToStore task (s.status i)
  cached : ∀ c ∈ s.cached, ∃ i task, tasks[i]? = some task ∧ task.context = c ∧
    (s.status i).hasComputed = true

theorem RunInv.init (featuresToStore : List κ) (tasks : List (FeatureTask κ α))
    (catalogue : List (FeatureBlockRow κ H)) :
    RunInv featuresToStore tasks (.init catalogue) where
  done _ _ _ := trivial
  cached _ h := absurd h List.not_mem_nil

/-- Statuses keep what they say when rows and cached blocks are added. -/
theorem Done.mono {task : FeatureTask κ α} {status : CalcStatus κ H}
    (h : s.Done featuresToStore task status) (hcached : s.cached ⊆ s'.cached)
    (hcatalogue : s.catalogue ⊆ s'.catalogue) : s'.Done featuresToStore task status := by
  cases status with
  | pending | failed => trivial
  | checking row | storing row => exact h
  | computed =>
    intro hmem
    obtain ⟨row, hrow, hown⟩ := h hmem
    exact ⟨row, hcatalogue hrow, hown⟩
  | fetched => exact hcached h

/-- A step of one task: its new status says what is so, and it does not become uncomputed. -/
theorem RunInv.of_setStatus (h : RunInv featuresToStore tasks s) {i : ℕ}
    {status : CalcStatus κ H} (hstatus : s'.status = Function.update s.status i status)
    (hcatalogue : s.catalogue ⊆ s'.catalogue) (hcached : s.cached ⊆ s'.cached)
    (hnew : ∀ c ∈ s'.cached, c ∉ s.cached → ∃ task, tasks[i]? = some task ∧ task.context = c ∧
      status.hasComputed = true)
    (hcomputed : (s.status i).hasComputed = true → status.hasComputed = true)
    (hdone : ∀ task, tasks[i]? = some task → s'.Done featuresToStore task status) :
    RunInv featuresToStore tasks s' := by
  refine ⟨fun j task htask => ?_, fun c hc => ?_⟩
  · rw [hstatus]
    by_cases hj : j = i
    · subst hj
      rw [Function.update_self]
      exact hdone task htask
    · rw [Function.update_of_ne hj]
      exact (h.done j task htask).mono hcached hcatalogue
  · by_cases hold : c ∈ s.cached
    · obtain ⟨j, task, htask, hc, hj⟩ := h.cached c hold
      refine ⟨j, task, htask, hc, ?_⟩
      rw [hstatus]
      by_cases hji : j = i
      · subst hji
        rw [Function.update_self]
        exact hcomputed hj
      · rwa [Function.update_of_ne hji]
    · obtain ⟨task, htask, hc, hi⟩ := hnew c hc hold
      exact ⟨i, task, htask, hc, by rwa [hstatus, Function.update_self]⟩

theorem of_makeFeatureBlockMetadata {task : FeatureTask κ α} {row : FeatureBlockRow κ H}
    (h : makeFeatureBlockMetadata hashDf task = .ok row) :
    row.key = task.context.featureKey ∧ row.interval = task.context.interval := by
  unfold makeFeatureBlockMetadata at h
  split at h
  · dsimp only at h
    split_ifs at h
    obtain rfl := Except.ok.inj h
    exact ⟨rfl, rfl⟩
  · cases h

variable [DecidableEq κ] [DecidableEq H]

theorem step_fetch {i : ℕ} (h : step hashDf featuresToStore tasks s (.fetch i) = some s') :
    ∃ task, tasks[i]? = some task ∧ s.status i = .pending ∧ task.context ∈ s.cached ∧
      s' = s.setStatus i .fetched := by
  simp only [step] at h
  split at h
  · next task htask hpending =>
    split_ifs at h with hmem
    exact ⟨task, htask, hpending, hmem, (Option.some.inj h).symm⟩
  · cases h

omit [DecidableEq H] in
theorem hasComputed_statusBehindCompute (task : FeatureTask κ α) :
    (statusBehindCompute hashDf featuresToStore task).hasComputed = true := by
  unfold statusBehindCompute
  split_ifs
  · cases makeFeatureBlockMetadata hashDf task <;> rfl
  · rfl

omit [DecidableEq H] in
theorem done_statusBehindCompute (s : FeatureRun κ H) (task : FeatureTask κ α) :
    s.Done featuresToStore task (statusBehindCompute hashDf featuresToStore task) := by
  unfold statusBehindCompute
  split_ifs with hstore
  · cases hrow : makeFeatureBlockMetadata hashDf task with
    | error e => trivial
    | ok row => exact of_makeFeatureBlockMetadata hrow
  · exact fun hmem => absurd hmem hstore

theorem step_compute {i : ℕ} {shouldCache : Bool}
    (h : step hashDf featuresToStore tasks s (.compute i shouldCache) = some s') :
    ∃ task, tasks[i]? = some task ∧ s.status i = .pending ∧
      s' = ⟨Function.update s.status i (statusBehindCompute hashDf featuresToStore task),
        if shouldCache then task.context :: s.cached else s.cached, s.catalogue⟩ := by
  simp only [step] at h
  split at h
  · next task htask hpending => exact ⟨task, htask, hpending, (Option.some.inj h).symm⟩
  · cases h

theorem step_exists {i : ℕ} (h : step hashDf featuresToStore tasks s (.exists i) = some s') :
    ∃ row, s.status i = .checking row ∧ s' = s.setStatus i
      (if row.hash ∈ s.catalogue.map FeatureBlockRow.hash then .computed else .storing row) := by
  simp only [step] at h
  split at h
  · next row hrow =>
    refine ⟨row, hrow, ?_⟩
    rw [← Option.some.inj h]
    simp only [featureBlockExists_eq_true_iff]
  · cases h

theorem step_store {i : ℕ} (h : step hashDf featuresToStore tasks s (.store i) = some s') :
    ∃ row, s.status i = .storing row ∧
      s' = ⟨Function.update s.status i .computed, s.cached,
        if row.hash ∈ s.catalogue.map FeatureBlockRow.hash then s.catalogue
        else s.catalogue ++ [row]⟩ := by
  simp only [step] at h
  split at h
  · next row hrow =>
    rw [storeRows_singleton] at h
    exact ⟨row, hrow, (Option.some.inj h).symm⟩
  · cases h

/-- **A step that finds only its own row** keeps the invariant. -/
theorem RunInv.of_step (h : RunInv featuresToStore tasks s) (hown : s.FindsOwn a)
    (hs' : step hashDf featuresToStore tasks s a = some s') :
    RunInv featuresToStore tasks s' := by
  cases a with
  | fetch i =>
    obtain ⟨task, htask, hpending, hmem, rfl⟩ := step_fetch hs'
    refine h.of_setStatus rfl (List.Subset.refl _) (List.Subset.refl _)
      (fun c hc hnot => absurd hc hnot) (by simp [hpending, CalcStatus.hasComputed])
      fun task' htask' => ?_
    obtain rfl := Option.some.inj (htask.symm.trans htask')
    exact hmem
  | compute i shouldCache =>
    obtain ⟨task, htask, hpending, rfl⟩ := step_compute hs'
    refine h.of_setStatus rfl (List.Subset.refl _) ?_
      (fun c hc hnot => ⟨task, htask, ?_, hasComputed_statusBehindCompute task⟩)
      (fun _ => hasComputed_statusBehindCompute task) fun task' htask' => ?_
    · cases shouldCache
      · exact List.Subset.refl _
      · exact List.subset_cons_self _ _
    · cases shouldCache
      · exact absurd hc hnot
      · exact ((List.mem_cons.1 hc).resolve_right hnot).symm
    · obtain rfl := Option.some.inj (htask.symm.trans htask')
      exact done_statusBehindCompute _ task
  | «exists» i =>
    obtain ⟨row, hrow, rfl⟩ := step_exists hs'
    refine h.of_setStatus rfl (List.Subset.refl _) (List.Subset.refl _)
      (fun c hc hnot => absurd hc hnot) (fun _ => by split_ifs <;> rfl) fun task htask => ?_
    have hkey := h.done i task htask
    rw [hrow] at hkey
    split_ifs with hfound
    · intro _
      have hown' := hown row (by rw [rowOf, hrow]) hfound
      rwa [hkey.1, hkey.2] at hown'
    · exact hkey
  | store i =>
    obtain ⟨row, hrow, rfl⟩ := step_store hs'
    refine h.of_setStatus rfl ?_ (List.Subset.refl _) (fun c hc hnot => absurd hc hnot)
      (fun _ => rfl) fun task htask _ => ?_
    · split_ifs
      · exact List.Subset.refl _
      · exact List.subset_append_left _ _
    · have hkey := h.done i task htask
      rw [hrow] at hkey
      by_cases hfound : row.hash ∈ s.catalogue.map FeatureBlockRow.hash
      · have hown' := hown row (by rw [rowOf, hrow]) hfound
        rw [hkey.1, hkey.2] at hown'
        simpa [Catalogued, hfound] using hown'
      · exact ⟨row, by simp [hfound], hkey⟩

/-- **Every block that is to be stored is catalogued under its feature and interval**, once all
tasks of the run are finished, if in no step of the run a hash is found without a row of the block
itself. -/
theorem catalogued_of_allSteps {catalogue : List (FeatureBlockRow κ H)} {as : List CalcAction}
    (hall : AllSteps (step hashDf featuresToStore tasks) FindsOwn (.init catalogue) as)
    (hs : run (step hashDf featuresToStore tasks) (.init catalogue) as = some s)
    (hfinished : ∀ i < tasks.length, s.status i = .computed ∨ s.status i = .fetched) :
    ∀ task ∈ tasks, task.context.featureKey ∈ featuresToStore → s.Catalogued task.context := by
  have hinv : RunInv featuresToStore tasks s :=
    invariant_of_allSteps (fun s a s' h hown hstep => h.of_step hown hstep)
      (.init featuresToStore tasks catalogue) hall hs
  -- a computed block is catalogued, a fetched one has been computed by another task
  have hcomputed : ∀ i task, tasks[i]? = some task → (s.status i).hasComputed = true →
      task.context.featureKey ∈ featuresToStore → s.Catalogued task.context := by
    intro i task htask hi hstore
    have hdone := hinv.done i task htask
    rcases hfinished i (List.getElem?_eq_some_iff.1 htask).1 with hstatus | hstatus
    · rw [hstatus] at hdone
      exact hdone hstore
    · rw [hstatus] at hi
      cases hi
  intro task hmem hstore
  obtain ⟨i, htask⟩ := List.mem_iff_getElem?.1 hmem
  rcases hfinished i (List.getElem?_eq_some_iff.1 htask).1 with hstatus | hstatus
  · exact hcomputed i task htask (by rw [hstatus]; rfl) hstore
  · have hdone := hinv.done i task htask
    rw [hstatus] at hdone
    obtain ⟨j, task', htask', hcontext, hj⟩ := hinv.cached _ hdone
    exact hcontext ▸ hcomputed j task' htask' hj (hcontext ▸ hstore)

/-! ### Two features -/

/-- The tasks of two features on one interval, with the values of their blocks. -/
def twoFeatures (v w : ℚ) : List (FeatureTask String ℚ) :=
  [⟨⟨"a", ⟨0, 1⟩⟩, [⟨1 / 2, v⟩]⟩, ⟨⟨"b", ⟨0, 1⟩⟩, [⟨1 / 2, w⟩]⟩]

/-- Different contents are catalogued, in whatever order the tasks get on. -/
theorem catalogued_twoFeatures : ∃ s : FeatureRun String (List (Event ℚ)),
    run (step id ["a", "b"] (twoFeatures 5 6)) (.init [])
        [.compute 0 true, .compute 1 false, .exists 0, .exists 1, .store 1, .store 0] = some s ∧
      ∀ task ∈ twoFeatures 5 6, s.Catalogued task.context := by
  have hrun : (run (step id ["a", "b"] (twoFeatures 5 6)) (.init [])
      [.compute 0 true, .compute 1 false, .exists 0, .exists 1, .store 1, .store 0]).map
        (fun s => (s.status 0, s.status 1)) =
      some ((.computed, .computed) : CalcStatus String (List (Event ℚ)) × _) := by
    decide +kernel
  obtain ⟨s, hs, hstatus⟩ := Option.map_eq_some_iff.1 hrun
  obtain ⟨h0, h1⟩ := Prod.mk.inj hstatus
  refine ⟨s, hs, fun task htask => catalogued_of_allSteps (by decide +kernel) hs ?_ task htask ?_⟩
  · intro i hi
    have hi' : i = 0 ∨ i = 1 := by
      simp only [twoFeatures, List.length_cons, List.length_nil] at hi
      omega
    rcases hi' with rfl | rfl
    · exact .inl h0
    · exact .inl h1
  · rcases List.mem_pair.1 htask with rfl | rfl <;> simp

/-- Equal contents are catalogued for the feature that comes first. -/
theorem not_catalogued_equalContents : ∃ s : FeatureRun String (List (Event ℚ)),
    run (step id ["a", "b"] (twoFeatures 5 5)) (.init [])
        [.compute 0 false, .exists 0, .store 0, .compute 1 false, .exists 1] = some s ∧
      s.status 0 = .computed ∧ s.status 1 = .computed ∧ ¬ s.Catalogued ⟨"b", ⟨0, 1⟩⟩ := by
  have hrun : (run (step id ["a", "b"] (twoFeatures 5 5)) (.init [])
      [.compute 0 false, .exists 0, .store 0, .compute 1 false, .exists 1]).map
        (fun s => (s.status 0, s.status 1)) =
      some ((.computed, .computed) : CalcStatus String (List (Event ℚ)) × _) := by
    decide +kernel
  have hrows : (run (step id ["a", "b"] (twoFeatures 5 5)) (.init [])
      [.compute 0 false, .exists 0, .store 0, .compute 1 false, .exists 1]).map catalogue =
      some [⟨"a", ⟨0, 1⟩, 0, [⟨1 / 2, 5⟩]⟩] := by
    decide +kernel
  obtain ⟨s, hs, hstatus⟩ := Option.map_eq_some_iff.1 hrun
  obtain ⟨h0, h1⟩ := Prod.mk.inj hstatus
  rw [hs, Option.map_some, Option.some.injEq] at hrows
  refine ⟨s, hs, h0, h1, ?_⟩
  rw [Catalogued, hrows]
  decide +kernel

end FeatureRun

end Svoe
