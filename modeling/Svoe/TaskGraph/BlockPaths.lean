import Mathlib.Data.List.Infix
import Svoe.Backtester.Workers
import Svoe.TaskGraph.FeaturesMeta

/-!
# The paths of stored blocks

The path of a block is the text of its owner, definition, key, compaction and day, of the second it
starts in and of the hash of its frame.

* `BlockNames.makeFeatureBlockPath_inj` : blocks with the same path are blocks of the same feature,
  with the same hash.
* `BlockNames.prefix_makeFeatureBlockPath`, `not_prefix_buildDataSourceBlockPath` : no feature block
  has the path of a data source block.
-/

namespace Svoe

/-! ### Texts with separators -/

section Separated

variable {α : Type*} {a : α} {l l' r r' : List α}

/-- What stands before the first separator, and behind it. -/
theorem append_cons_inj_left (hl : a ∉ l) (hl' : a ∉ l') (h : l ++ a :: r = l' ++ a :: r') :
    l = l' ∧ r = r' := by
  induction l generalizing l' with
  | nil =>
    cases l' with
    | nil => exact ⟨rfl, (List.cons.inj h).2⟩
    | cons b l' => exact absurd (List.cons.inj h).1 (by rintro rfl; exact hl' List.mem_cons_self)
  | cons b l ih =>
    cases l' with
    | nil => exact absurd (List.cons.inj h).1.symm (by rintro rfl; exact hl List.mem_cons_self)
    | cons b' l' =>
      obtain ⟨rfl, hrest⟩ := List.cons.inj h
      obtain ⟨rfl, rfl⟩ := ih (fun hm => hl (List.mem_cons_of_mem _ hm))
        (fun hm => hl' (List.mem_cons_of_mem _ hm)) hrest
      exact ⟨rfl, rfl⟩

/-- What stands behind the last separator, and before it. -/
theorem append_cons_inj_right (hr : a ∉ r) (hr' : a ∉ r') (h : l ++ a :: r = l' ++ a :: r') :
    l = l' ∧ r = r' := by
  have hrev := congrArg List.reverse h
  simp only [List.reverse_append, List.reverse_cons, List.append_assoc, List.singleton_append]
    at hrev
  obtain ⟨hr, hl⟩ := append_cons_inj_left (by simpa using hr) (by simpa using hr') hrev
  exact ⟨List.reverse_injective hl, List.reverse_injective hr⟩

/-- The parts that a separator ends. -/
theorem flatMap_concat_inj {ls ls' : List (List α)} (hls : ∀ l ∈ ls, a ∉ l)
    (hls' : ∀ l ∈ ls', a ∉ l) (hlength : ls.length = ls'.length)
    (h : (ls.flatMap fun l => l ++ [a]) ++ r = (ls'.flatMap fun l => l ++ [a]) ++ r') :
    ls = ls' ∧ r = r' := by
  induction ls generalizing ls' with
  | nil =>
    obtain rfl := List.length_eq_zero_iff.1 hlength.symm
    exact ⟨rfl, h⟩
  | cons l ls ih =>
    obtain ⟨l', ls', rfl⟩ := List.exists_cons_of_length_eq_add_one hlength.symm
    rw [List.forall_mem_cons] at hls hls'
    simp only [List.flatMap_cons, List.append_assoc, List.cons_append] at h
    obtain ⟨rfl, hrest⟩ := append_cons_inj_left hls.1 hls'.1 h
    obtain ⟨rfl, rfl⟩ := ih hls.2 hls'.2 (by simpa using hlength) hrest
    exact ⟨rfl, rfl⟩

end Separated

/-! ### Paths -/

/-- The path of a block: the fields, the second its interval starts in, and its hash. -/
def buildBlockPath (root : String) (fields : List String) (startTs : ℚ) (hash : String) : String :=
  fields.foldl (fun res v => if v.length = 0 then res else res ++ v ++ "/") root ++
    toString (Backtester.truncate startTs) ++ "-" ++ hash ++ ".parquet.gz"

/-- `build_feature_block_path`; `day` is the last of the fields. -/
def buildFeatureBlockPath (root : String)
    (ownerId featureDefinition key compaction day : String) (startTs : ℚ) (hash : String) :
    String :=
  buildBlockPath root [ownerId, featureDefinition, key, compaction, day] startTs hash

/-- `build_data_source_block_path`. -/
def buildDataSourceBlockPath (root : String)
    (ownerId dataSourceDefinition key compaction day : String) (startTs : ℚ) (hash : String) :
    String :=
  buildBlockPath root [ownerId, dataSourceDefinition, key, compaction, day] startTs hash

/-- `SVOE_S3_FEATURE_CATALOG_BLOCK_PATH_PREFIX`. -/
def featureCatalogRoot : String := "s3://svoe-feature-catalog-data/"

/-- `SVOE_S3_DATA_CATALOG_BLOCK_PATH_PREFIX`. -/
def dataCatalogRoot : String := "s3://svoe-cataloged-data/"

/-- A text that can be a field of a path: it is not empty, and has no separator in it. -/
structure PathField (text : String) : Prop where
  length_ne : text.length ≠ 0
  slash : '/' ∉ text.toList

theorem toList_foldl_fields {fields : List String} (h : ∀ v ∈ fields, PathField v) (root : String) :
    (fields.foldl (fun res v => if v.length = 0 then res else res ++ v ++ "/") root).toList =
      root.toList ++ (fields.map String.toList).flatMap fun l => l ++ ['/'] := by
  induction fields generalizing root with
  | nil => simp
  | cons v fields ih =>
    rw [List.forall_mem_cons] at h
    rw [List.foldl_cons, if_neg h.1.length_ne, ih h.2]
    simp [String.toList_append]

theorem toList_buildBlockPath {fields : List String} (h : ∀ v ∈ fields, PathField v) (root : String)
    (startTs : ℚ) (hash : String) : (buildBlockPath root fields startTs hash).toList =
      root.toList ++ ((fields.map String.toList).flatMap fun l => l ++ ['/']) ++
        ((toString (Backtester.truncate startTs)).toList ++
          '-' :: (hash.toList ++ ".parquet.gz".toList)) := by
  rw [buildBlockPath]
  simp only [String.toList_append, toList_foldl_fields h]
  simp

/-- Paths with the same fields and the same hash only are the same. -/
theorem buildBlockPath_inj {root : String} {fields fields' : List String}
    (h : ∀ v ∈ fields, PathField v) (h' : ∀ v ∈ fields', PathField v)
    (hlength : fields.length = fields'.length) {startTs startTs' : ℚ} {hash hash' : String}
    (hhash : '-' ∉ hash.toList) (hhash' : '-' ∉ hash'.toList)
    (hpath : buildBlockPath root fields startTs hash = buildBlockPath root fields' startTs' hash') :
    fields = fields' ∧ hash = hash' := by
  have hlist := congrArg String.toList hpath
  rw [toList_buildBlockPath h, toList_buildBlockPath h', List.append_assoc, List.append_assoc,
    List.append_cancel_left_eq] at hlist
  have hslash : ∀ {fields : List String}, (∀ v ∈ fields, PathField v) →
      ∀ l ∈ fields.map String.toList, '/' ∉ l := fun h l hl => by
    obtain ⟨v, hv, rfl⟩ := List.mem_map.1 hl
    exact (h v hv).slash
  obtain ⟨hfields, hrest⟩ :=
    flatMap_concat_inj (hslash h) (hslash h') (by simpa using hlength) hlist
  have hsuffix : ∀ {hash : String}, '-' ∉ hash.toList →
      '-' ∉ hash.toList ++ ".parquet.gz".toList := fun hhash => by
    simpa using hhash
  obtain ⟨-, hrest⟩ := append_cons_inj_right (hsuffix hhash) (hsuffix hhash') hrest
  exact ⟨List.map_injective_iff.2 (fun _ _ => String.ext) hfields,
    String.ext (List.append_cancel_right hrest)⟩

/-! ### The rows of feature blocks -/

/-- The columns of a feature block's row that are read or compared. -/
structure StoredRow (κ : Type) extends FeatureBlockMetadata κ where
  hash : String
  deriving DecidableEq

/-- The texts of features and days, as they stand in paths: keys and names of definitions are
identifiers, days are dates. -/
structure BlockNames (κ : Type) where
  key : κ → String
  featureDefinition : κ → String
  dayStr : ℤ → String
  key_injective : Function.Injective key
  field_key : ∀ k, PathField (key k)
  field_featureDefinition : ∀ k, PathField (featureDefinition k)
  field_dayStr : ∀ day, PathField (dayStr day)

variable {κ : Type}

/-- `make_feature_block_path` of the remote adapter; all blocks have the owner `0` and are not
compacted. -/
def BlockNames.makeFeatureBlockPath (names : BlockNames κ) (key : κ) (day : ℤ) (startTs : ℚ)
    (hash : String) : String :=
  buildFeatureBlockPath featureCatalogRoot "0" (names.featureDefinition key) (names.key key) "raw"
    (names.dayStr day) startTs hash

namespace BlockNames

variable (names : BlockNames κ) {k k' : κ} {day day' : ℤ} {startTs startTs' : ℚ}
  {hash hash' : String}

theorem fields_ok (k : κ) (day : ℤ) : ∀ v ∈ ["0", names.featureDefinition k, names.key k, "raw",
    names.dayStr day], PathField v := by
  simp only [List.forall_mem_cons]
  exact ⟨⟨by decide, by decide⟩, names.field_featureDefinition k, names.field_key k,
    ⟨by decide, by decide⟩, names.field_dayStr day, nofun⟩

/-- **A path names its contents**: blocks with the same path are blocks of the same feature, with
the same hash. -/
theorem makeFeatureBlockPath_inj (hhash : '-' ∉ hash.toList) (hhash' : '-' ∉ hash'.toList)
    (h : names.makeFeatureBlockPath k day startTs hash =
      names.makeFeatureBlockPath k' day' startTs' hash') : k = k' ∧ hash = hash' := by
  obtain ⟨hfields, hh⟩ := buildBlockPath_inj (names.fields_ok k day) (names.fields_ok k' day') rfl
    hhash hhash' h
  simp only [List.cons.injEq] at hfields
  exact ⟨names.key_injective hfields.2.2.1, hh⟩

/-- A feature block has a path in the feature catalogue. -/
theorem prefix_makeFeatureBlockPath :
    featureCatalogRoot.toList <+: (names.makeFeatureBlockPath k day startTs hash).toList := by
  unfold makeFeatureBlockPath buildFeatureBlockPath
  rw [toList_buildBlockPath (names.fields_ok k day), List.append_assoc]
  exact List.prefix_append _ _

end BlockNames

/-- A data source block has its path in another catalogue. -/
theorem not_prefix_buildDataSourceBlockPath
    {ownerId dataSourceDefinition key compaction day : String}
    (h : ∀ v ∈ [ownerId, dataSourceDefinition, key, compaction, day], PathField v) (startTs : ℚ)
    (hash : String) : ¬ featureCatalogRoot.toList <+: (buildDataSourceBlockPath dataCatalogRoot
      ownerId dataSourceDefinition key compaction day startTs hash).toList := by
  intro hle
  unfold buildDataSourceBlockPath at hle
  rw [toList_buildBlockPath h, List.append_assoc] at hle
  rcases List.prefix_or_prefix_of_prefix hle (List.prefix_append dataCatalogRoot.toList _) with
    h | h
  · exact absurd h (by decide)
  · exact absurd h (by decide)

end Svoe
