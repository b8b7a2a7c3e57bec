import Svoe.Common.Time
import Svoe.Portion.Interval
import Svoe.TaskGraph.CacheActor

/-!
# The metadata of stored feature blocks

`get_features_meta` reads the rows of stored feature blocks between two dates, and files each under
its interval with both ends rounded.  Two rows of one feature with the same rounded interval raise.

* `getFeaturesMeta_spec` : what the groups are, and when there are any.
-/

namespace Svoe

open Portion

variable {κ : Type} [DecidableEq κ]

/-! ### Rows -/

/-- The columns of `FeatureBlockMetadata` that are read here, `start_ts` and `end_ts` as floats. -/
structure FeatureBlockMetadata (κ : Type) where
  key : κ
  startTs : ℚ
  endTs : ℚ
  day : ℤ
  path : String
  deriving DecidableEq

namespace FeatureBlockMetadata

/-- The interval the block was computed for. -/
def interval (r : FeatureBlockMetadata κ) : ClosedInterval ℚ := ⟨r.startTs, r.endTs⟩

/-- What the block was computed for. -/
def context (r : FeatureBlockMetadata κ) : Context κ (ClosedInterval ℚ) := ⟨r.key, r.interval⟩

/-- `closed(round_float(_start_ts), round_float(_end_ts))`. -/
def rounded (r : FeatureBlockMetadata κ) : ClosedInterval ℚ :=
  ⟨roundFloat r.startTs, roundFloat r.endTs⟩

end FeatureBlockMetadata

/-- `date_str_to_day_str`, of a date that is given by its timestamp: the number of the day. -/
def dayOfTs (ts : ℚ) : ℤ := ⌊ts / 86400⌋

/-- `select_feature_blocks_metadata`.  `table` lists the rows in the order of the query. -/
def selectFeatureBlocksMetadata (table : List (FeatureBlockMetadata κ)) (featureKeys : List κ)
    (startDay endDay : Option ℤ) : List (FeatureBlockMetadata κ) :=
  table.filter fun r => r.key ∈ featureKeys ∧ startDay.all (· ≤ r.day) ∧ endDay.all (r.day ≤ ·)

/-- `groups`, with the feature of a row as its key: the query returns rows of the features only. -/
abbrev StoredGroups (κ : Type) := List (κ × List (ClosedInterval ℚ × FeatureBlockMetadata κ))

/-- The loop of `get_features_meta`, for a row that is in range. -/
def groupRow (groups : StoredGroups κ) (r : FeatureBlockMetadata κ) :
    Except PyError (StoredGroups κ) :=
  match dictGet groups r.key with
  | some stored =>
    if (dictGet stored r.rounded).isSome then
      .error (.value "FeatureBlockMetadata entry duplicate interval")
    else .ok (dictSet groups r.key (dictSet stored r.rounded r))
  | none => .ok (dictSet groups r.key [(r.rounded, r)])

/-- One round of the loop of `get_features_meta`. -/
def readRow (startTs endTs : Option ℚ) (groups : StoredGroups κ) (r : FeatureBlockMetadata κ) :
    Except PyError (StoredGroups κ) :=
  if startTs.any (r.endTs < ·) then .ok groups
  else if endTs.any (· < r.startTs) then .ok groups
  else groupRow groups r

/-- `get_features_meta`, with the dates given by their timestamps. -/
def getFeaturesMeta (table : List (FeatureBlockMetadata κ)) (features : List κ)
    (startDate endDate : Option ℚ) : Except PyError (StoredGroups κ) :=
  (selectFeatureBlocksMetadata table features (startDate.map dayOfTs) (endDate.map dayOfTs)).foldlM
    (readRow startDate endDate) []

/-- `stored_feature_blocks_meta`, of which the builder reads the intervals and the paths. -/
def StoredGroups.blocksMeta (groups : StoredGroups κ) (k : κ) :
    Option (List (ClosedInterval ℚ × String)) :=
  (dictGet groups k).map fun stored => stored.map fun p => (p.1, p.2.path)

/-- The row is read: its key is asked for, and its day and its interval are within the dates. -/
def FeatureBlockMetadata.IsRead (features : List κ) (startDate endDate : Option ℚ)
    (r : FeatureBlockMetadata κ) : Prop :=
  r.key ∈ features ∧ (∀ ts ∈ startDate, dayOfTs ts ≤ r.day ∧ ts ≤ r.endTs) ∧
    ∀ ts ∈ endDate, r.day ≤ dayOfTs ts ∧ r.startTs ≤ ts

instance (features : List κ) (startDate endDate : Option ℚ) :
    DecidablePred (FeatureBlockMetadata.IsRead features startDate endDate) := fun r => by
  unfold FeatureBlockMetadata.IsRead
  infer_instance

/-! ### The groups -/

section Groups

variable {table rows rows' : List (FeatureBlockMetadata κ)} {features : List κ}
  {startDate endDate : Option ℚ} {groups groups' : StoredGroups κ} {r : FeatureBlockMetadata κ}
  {k : κ}

/-- What the loop files under a key. -/
def entriesOf (rows : List (FeatureBlockMetadata κ)) (k : κ) :
    List (ClosedInterval ℚ × FeatureBlockMetadata κ) :=
  (rows.filter fun r => r.key = k).map fun r => (r.rounded, r)

/-- The groups are those of the rows, and no two rows of a key have the same rounded interval. -/
structure Grouped (rows : List (FeatureBlockMetadata κ)) (groups : StoredGroups κ) : Prop where
  entries : ∀ k, dictGet groups k = if entriesOf rows k = [] then none else some (entriesOf rows k)
  nodup : ∀ k, ((entriesOf rows k).map Prod.fst).Nodup

theorem entriesOf_append_singleton : entriesOf (rows ++ [r]) k =
    entriesOf rows k ++ if r.key = k then [(r.rounded, r)] else [] := by
  rw [entriesOf, List.filter_append, List.map_append]
  by_cases hk : r.key = k <;> simp [hk, entriesOf]

/-- A row is filed behind the rows of its key, unless one of them has its rounded interval. -/
theorem groupRow_eq_ok_iff (h : Grouped rows groups) : groupRow groups r = .ok groups' ↔
    r.rounded ∉ (entriesOf rows r.key).map Prod.fst ∧
      dictSet groups r.key (entriesOf rows r.key ++ [(r.rounded, r)]) = groups' := by
  unfold groupRow
  rw [h.entries]
  by_cases hk : entriesOf rows r.key = []
  · simp [hk]
  rw [if_neg hk]
  show (if (dictGet (entriesOf rows r.key) r.rounded).isSome then _ else _) = _ ↔ _
  by_cases hmem : r.rounded ∈ (entriesOf rows r.key).map Prod.fst
  · have hsome : (dictGet (entriesOf rows r.key) r.rounded).isSome :=
      Option.isSome_iff_ne_none.2 fun hnone => dictGet_eq_none_iff.1 hnone hmem
    rw [if_pos hsome]
    exact iff_of_false (fun h' => by cases h') fun h' => h'.1 hmem
  · rw [dictGet_eq_none_iff.2 hmem, dictSet_of_not_mem hmem]
    simp [hmem]

theorem Grouped.snoc (h : Grouped rows groups) (hr : groupRow groups r = .ok groups') :
    Grouped (rows ++ [r]) groups' := by
  obtain ⟨hnew, rfl⟩ := (groupRow_eq_ok_iff h).1 hr
  constructor
  · intro k
    rw [dictGet_dictSet, entriesOf_append_singleton]
    by_cases hk : r.key = k
    · subst hk
      simp
    · simp [hk, h.entries]
  · intro k
    rw [entriesOf_append_singleton]
    by_cases hk : r.key = k
    · subst hk
      rw [if_pos rfl, List.map_append, List.nodup_append]
      refine ⟨h.nodup _, List.nodup_singleton _, ?_⟩
      intro I hI J hJ hIJ
      obtain rfl : J = r.rounded := List.mem_singleton.1 hJ
      exact hnew (hIJ ▸ hI)
    · rw [if_neg hk, List.append_nil]
      exact h.nodup k

/-- The rows of a loop that goes through, and when it does. -/
theorem exists_foldlM_groupRow_iff (h : Grouped rows groups) :
    (∃ groups', rows'.foldlM groupRow groups = .ok groups') ↔
      ∀ k, ((entriesOf (rows ++ rows') k).map Prod.fst).Nodup := by
  induction rows' generalizing rows groups with
  | nil => exact iff_of_true ⟨groups, rfl⟩ (by simpa using h.nodup)
  | cons r rows' ih =>
    rw [← List.singleton_append, ← List.append_assoc]
    constructor
    · rintro ⟨groups', hgroups⟩
      rw [List.singleton_append, List.foldlM_cons, bind_eq_ok_iff] at hgroups
      obtain ⟨groups₁, hr, hgroups⟩ := hgroups
      exact (ih (h.snoc hr)).1 ⟨groups', hgroups⟩
    · intro hnodup
      have hnew : r.rounded ∉ (entriesOf rows r.key).map Prod.fst := by
        intro hmem
        have hone : ((entriesOf (rows ++ [r]) r.key).map Prod.fst).Nodup := by
          refine (hnodup r.key).sublist (.map _ (.map _ (.filter _ ?_)))
          exact List.sublist_append_left _ _
        rw [entriesOf_append_singleton, if_pos rfl, List.map_append, List.nodup_append] at hone
        exact hone.2.2 _ hmem _ (List.mem_singleton_self _) rfl
      have hr := (groupRow_eq_ok_iff h).2 ⟨hnew, rfl⟩
      obtain ⟨groups', hgroups⟩ := (ih (h.snoc hr)).2 hnodup
      exact ⟨groups', bind_eq_ok_iff.2 ⟨_, hr, hgroups⟩⟩

theorem Grouped.foldlM (h : Grouped rows groups) (hgroups : rows'.foldlM groupRow groups =
    .ok groups') : Grouped (rows ++ rows') groups' := by
  induction rows' generalizing rows groups with
  | nil =>
    rw [List.append_nil, ← Except.ok.inj hgroups]
    exact h
  | cons r rows' ih =>
    rw [List.foldlM_cons, bind_eq_ok_iff] at hgroups
    obtain ⟨groups₁, hr, hgroups⟩ := hgroups
    have hrest := ih (h.snoc hr) hgroups
    rwa [List.append_assoc, List.singleton_append] at hrest

theorem grouped_nil : Grouped ([] : List (FeatureBlockMetadata κ)) [] :=
  ⟨fun _ => rfl, fun _ => List.nodup_nil⟩

theorem all_map_iff {α β : Type} {f : α → β} {p : β → Bool} {o : Option α} :
    (o.map f).all p = true ↔ ∀ a ∈ o, p (f a) = true := by
  cases o <;> simp

/-- The two tests of the interval, on a row the query returns. -/
theorem readRow_eq (hkey : r.key ∈ features)
    (hstart : ∀ ts ∈ startDate, dayOfTs ts ≤ r.day) (hend : ∀ ts ∈ endDate, r.day ≤ dayOfTs ts) :
    readRow startDate endDate groups r =
      if r.IsRead features startDate endDate then groupRow groups r else .ok groups := by
  unfold readRow
  have hread : r.IsRead features startDate endDate ↔
      ¬ startDate.any (r.endTs < ·) = true ∧ ¬ endDate.any (· < r.startTs) = true := by
    simp only [FeatureBlockMetadata.IsRead, Option.mem_def] at hstart hend ⊢
    cases startDate <;> cases endDate <;> simp_all
  split_ifs <;> simp_all

/-- The rows that are read. -/
theorem getFeaturesMeta_eq : getFeaturesMeta table features startDate endDate =
    (table.filter (FeatureBlockMetadata.IsRead features startDate endDate)).foldlM
      groupRow [] := by
  rw [getFeaturesMeta, selectFeatureBlocksMetadata, List.foldlM_filter, List.foldlM_filter]
  congr 1
  funext groups r
  simp only [all_map_iff, decide_eq_true_eq]
  by_cases hselect : r.key ∈ features ∧ (∀ ts ∈ startDate, dayOfTs ts ≤ r.day) ∧
      ∀ ts ∈ endDate, r.day ≤ dayOfTs ts
  · rw [if_pos hselect, readRow_eq hselect.1 hselect.2.1 hselect.2.2]
    rfl
  · have hread : ¬ r.IsRead features startDate endDate := by
      rintro ⟨hkey, hstart, hend⟩
      exact hselect ⟨hkey, fun ts hts => (hstart ts hts).1, fun ts hts => (hend ts hts).1⟩
    rw [if_neg hselect, if_neg hread]

/-- **The groups**: there are some if and only if no two rows that are read have the same key and
the same rounded interval. -/
theorem getFeaturesMeta_spec :
    ((∃ groups, getFeaturesMeta table features startDate endDate = .ok groups) ↔
      ∀ k, ((entriesOf (table.filter (FeatureBlockMetadata.IsRead features startDate endDate))
        k).map Prod.fst).Nodup) ∧
    ∀ groups, getFeaturesMeta table features startDate endDate = .ok groups →
      Grouped (table.filter (FeatureBlockMetadata.IsRead features startDate endDate)) groups := by
  rw [getFeaturesMeta_eq]
  exact ⟨exists_foldlM_groupRow_iff grouped_nil, fun _ h => grouped_nil.foldlM h⟩

end Groups

end Svoe
