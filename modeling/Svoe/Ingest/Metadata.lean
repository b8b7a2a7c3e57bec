import Svoe.Ingest.Catalogue
import Svoe.Ingest.InputItems

/-!
# Metadata of ingested data sources

For every batch, `_schedule_tasks` stores a `DataSourceMetadata` before it creates the tasks of the
items that the catalogue lacks.  It is the metadata of the first of these items only, and a batch
may mix the symbols of a definition.  A batch of another definition than the one that
`filter_input_batch` supports raises, and ends `_schedule_tasks`.

* `scheduleBatch_spec`, `scheduleBatches_spec` : when a batch, and several, are scheduled, and the
  keys that have metadata then.
* `metadataStored_iff` : when every item that is scheduled has its metadata.
* `firstKeysSuffice_of_sameKey` : it has if no batch mixes keys.
-/

namespace Svoe

namespace Ingest

/-- `DataSourceMetadata`; `extras` is empty. -/
structure DataSourceMetadata where
  ownerId : String
  key : String
  dataSourceDefinition : String
  params : Instrument
  /-- `DEFAULT_VERSION` if it is not given. -/
  version : String := ""
  deriving DecidableEq, Repr

/-- The columns of the primary key. -/
def DataSourceMetadata.primaryKey (row : DataSourceMetadata) : String × String × String × String :=
  (row.ownerId, row.key, row.dataSourceDefinition, row.version)

/-- `store_metadata_if_needed`: the table, and the number of stored rows. -/
def storeMetadataIfNeeded (table items : List DataSourceMetadata) :
    Except PyError (List DataSourceMetadata × ℕ) :=
  match items with
  -- `items[0]`
  | [] => .error .index
  | _ =>
    let keys := items.map DataSourceMetadata.key
    let existing := table.filter fun row => row.key ∈ keys
    let existingKeys := existing.map DataSourceMetadata.key
    let batch := items.filter fun item => item.key ∉ existingKeys
    if batch.length = 0 then .ok (table, 0)
    else if (batch.map DataSourceMetadata.primaryKey).Nodup ∧
        ∀ row ∈ batch, row.primaryKey ∉ table.map DataSourceMetadata.primaryKey then
      .ok (table ++ batch, batch.length)
    else .error .integrity

section Batches

variable {H : Type}

/-- `filter_cryptotick_batch` of the client, on a batch. -/
def filterCryptotickItems (catalogue : List (BlockRow String H)) (batch : InputItemBatch) :
    InputItemBatch :=
  let paths := batch.items.map InputItem.path
  let rows := catalogue.filter fun row => row.sourcePath ∈ paths
  if rows = [] then batch
  else ⟨batch.batchId, batch.items.filter fun item => isIncomplete rows item.path⟩

/-- `CryptotickL2BookIncrementalData.__name__`. -/
def cryptotickL2BookIncrementalData : String := "CryptotickL2BookIncrementalData"

/-- `filter_input_batch` of the database actor. -/
def filterInputBatch (catalogue : List (BlockRow String H)) (batch : InputItemBatch) :
    Except PyError InputItemBatch :=
  match batch.items with
  | [] => .ok batch
  | item :: _ =>
    if item.dataSourceDefinition = cryptotickL2BookIncrementalData then
      .ok (filterCryptotickItems catalogue batch)
    else .error (.value ("Unsupported data_source_definition: " ++ item.dataSourceDefinition))

/-- The items of a batch that are scheduled. -/
def scheduledItems (input : List (BlockRow String H) × InputItemBatch) :
    Except PyError (List InputItem) :=
  (filterInputBatch input.1 input.2).map InputItemBatch.items

/-- What `_schedule_tasks` does with the metadata for a batch. -/
def scheduleBatch (table : List DataSourceMetadata)
    (input : List (BlockRow String H) × InputItemBatch) :
    Except PyError (List DataSourceMetadata) := do
  match ← scheduledItems input with
  | [] => return table
  | item :: _ =>
    let stored ← storeMetadataIfNeeded table
      [⟨"0", item.key, item.dataSourceDefinition, item.params, ""⟩]
    return stored.1

/-- The batches one after the other.  The catalogue that a batch is filtered by is the one at that
time. -/
def scheduleBatches (table : List DataSourceMetadata)
    (inputs : List (List (BlockRow String H) × InputItemBatch)) :
    Except PyError (List DataSourceMetadata) :=
  inputs.foldlM scheduleBatch table

/-- A batch that `filter_input_batch` supports. -/
def InputItemBatch.IsSupported (batch : InputItemBatch) : Prop :=
  ∀ item ∈ batch.items.head?, item.dataSourceDefinition = cryptotickL2BookIncrementalData

instance (batch : InputItemBatch) : Decidable batch.IsSupported :=
  inferInstanceAs (Decidable (∀ item ∈ batch.items.head?,
    item.dataSourceDefinition = cryptotickL2BookIncrementalData))

theorem filterCryptotickItems_subset (catalogue : List (BlockRow String H))
    (batch : InputItemBatch) : (filterCryptotickItems catalogue batch).items ⊆ batch.items := by
  rw [filterCryptotickItems]
  split_ifs
  · exact List.Subset.refl _
  · exact List.filter_subset_self _

/-- Unsupported batches raise, the others keep some of their items. -/
theorem scheduledItems_spec (input : List (BlockRow String H) × InputItemBatch) :
    (¬ input.2.IsSupported ∧ ∃ e, scheduledItems input = .error e) ∨
      (input.2.IsSupported ∧ ∃ items, scheduledItems input = .ok items ∧
        items ⊆ input.2.items) := by
  rw [scheduledItems, filterInputBatch, InputItemBatch.IsSupported]
  cases hitems : input.2.items with
  | nil => exact Or.inr ⟨nofun, _, rfl, hitems ▸ List.Subset.refl _⟩
  | cons item items =>
    by_cases hname : item.dataSourceDefinition = cryptotickL2BookIncrementalData
    · refine Or.inr ⟨fun _ h => Option.some.inj h ▸ hname, _, by simp only [if_pos hname]; rfl, ?_⟩
      exact hitems ▸ filterCryptotickItems_subset input.1 input.2
    · exact Or.inl ⟨fun h => hname (h item rfl), _, by simp only [if_neg hname]; rfl⟩

theorem mem_of_mem_scheduledItems {input : List (BlockRow String H) × InputItemBatch}
    {items : List InputItem} (h : scheduledItems input = .ok items) {item : InputItem}
    (hitem : item ∈ items) : item ∈ input.2.items := by
  rcases scheduledItems_spec input with ⟨-, e, he⟩ | ⟨-, items', hitems, hsub⟩
  · rw [he] at h
    cases h
  · rw [hitems] at h
    exact hsub (Except.ok.inj h ▸ hitem)

/-- Storing one row. -/
theorem storeMetadataIfNeeded_singleton (table : List DataSourceMetadata)
    (row : DataSourceMetadata) :
    storeMetadataIfNeeded table [row] =
      if row.key ∈ table.map DataSourceMetadata.key then .ok (table, 0)
      else .ok (table ++ [row], 1) := by
  have hexisting : row.key ∈ (table.filter fun r => r.key ∈ [row].map DataSourceMetadata.key).map
      DataSourceMetadata.key ↔ row.key ∈ table.map DataSourceMetadata.key := by
    constructor
    · exact fun h => List.map_subset _ (List.filter_subset_self table) h
    · intro h
      obtain ⟨r, hr, hkey⟩ := List.mem_map.1 h
      exact List.mem_map.2 ⟨r, List.mem_filter.2 ⟨hr, by simp [hkey]⟩, hkey⟩
  have hbatch : ∀ keys : List String, ([row].filter fun item => item.key ∉ keys) =
      if row.key ∈ keys then [] else [row] := by
    intro keys
    by_cases h : row.key ∈ keys <;> simp [h]
  rw [storeMetadataIfNeeded]
  swap
  · exact List.cons_ne_nil row []
  simp only [hbatch, hexisting]
  by_cases hrow : row.key ∈ table.map DataSourceMetadata.key
  · rw [if_pos hrow, if_pos hrow]
    rfl
  · have hprimary : row.primaryKey ∉ table.map DataSourceMetadata.primaryKey := by
      intro h
      obtain ⟨r, hr, hkey⟩ := List.mem_map.1 h
      exact hrow (List.mem_map.2 ⟨r, hr, congrArg (fun k => k.2.1) hkey⟩)
    rw [if_neg hrow, if_neg hrow, if_neg (by simp), if_pos]
    · rfl
    · exact ⟨List.nodup_singleton _, fun r hr => List.mem_singleton.1 hr ▸ hprimary⟩

/-- The key of the first scheduled item. -/
def firstKey (input : List (BlockRow String H) × InputItemBatch) : Option String :=
  (scheduledItems input).toOption.bind fun items => items.head?.map InputItem.key

variable {table table' : List DataSourceMetadata} {δ : Type} [DecidableEq δ]
  {className : δ → String} {hash : List (HashValue Instrument) → String}
  {input : List (BlockRow String H) × InputItemBatch}
  {inputs : List (List (BlockRow String H) × InputItemBatch)}

/-- The keys of rows are those of their definitions and params. -/
def Keyed (hash : List (HashValue Instrument) → String) (table : List DataSourceMetadata) : Prop :=
  ∀ row ∈ table, row.key = sourceKey hash row.dataSourceDefinition row.params

/-- Unsupported batches raise.  For the others, the key of the first item is in the table from then
on. -/
theorem scheduleBatch_spec
    (hinput : ∀ item ∈ input.2.items,
      item.key = sourceKey hash item.dataSourceDefinition item.params)
    (htable : Keyed hash table) :
    (¬ input.2.IsSupported ∧ ∃ e, scheduleBatch table input = .error e) ∨
      (input.2.IsSupported ∧ ∃ table', scheduleBatch table input = .ok table' ∧
        Keyed hash table' ∧ ∀ k, k ∈ table'.map DataSourceMetadata.key ↔
          k ∈ table.map DataSourceMetadata.key ∨ firstKey input = some k) := by
  rcases scheduledItems_spec input with ⟨hsup, e, he⟩ | ⟨hsup, items, hitems, hsub⟩
  · exact Or.inl ⟨hsup, e, by rw [scheduleBatch, he]; rfl⟩
  refine Or.inr ⟨hsup, ?_⟩
  have hfirst : firstKey input = items.head?.map InputItem.key := by
    rw [firstKey, hitems]
    rfl
  rw [scheduleBatch, hfirst, hitems]
  cases items with
  | nil => exact ⟨table, rfl, htable, fun k => by simp⟩
  | cons item items =>
    have hitem : item.key = sourceKey hash item.dataSourceDefinition item.params :=
      hinput item (hsub List.mem_cons_self)
    simp only [bind, Except.bind, pure, Except.pure, storeMetadataIfNeeded_singleton]
    by_cases hkey : item.key ∈ table.map DataSourceMetadata.key
    · rw [if_pos hkey]
      refine ⟨table, rfl, htable, fun k => ⟨Or.inl, ?_⟩⟩
      rintro (h | h)
      · exact h
      · exact Option.some.inj h ▸ hkey
    · rw [if_neg hkey]
      refine ⟨_, rfl, ?_, fun k => ?_⟩
      · intro row hrow
        rcases List.mem_append.1 hrow with hrow | hrow
        · exact htable row hrow
        · obtain rfl := List.mem_singleton.1 hrow
          exact hitem
      · rw [List.map_append, List.mem_append]
        simp [eq_comm]

/-- A batch that comes from `cryptotick_input_items`. -/
def IsInputBatch (className : δ → String) (hash : List (HashValue Instrument) → String)
    (batch : InputItemBatch) : Prop :=
  ∃ (config : DataIngestConfig δ) (batches : List InputItemBatch),
    cryptotickInputItems className hash config = .ok batches ∧ batch ∈ batches

/-- **Several batches** are scheduled exactly if all of them are supported; the keys that have
metadata then are those of their first items. -/
theorem scheduleBatches_spec
    (hinputs : ∀ input ∈ inputs, ∀ item ∈ input.2.items,
      item.key = sourceKey hash item.dataSourceDefinition item.params)
    (htable : Keyed hash table) :
    (¬ (∀ input ∈ inputs, input.2.IsSupported) ∧ ∃ e, scheduleBatches table inputs = .error e) ∨
      ((∀ input ∈ inputs, input.2.IsSupported) ∧ ∃ table',
        scheduleBatches table inputs = .ok table' ∧ Keyed hash table' ∧
          ∀ k, k ∈ table'.map DataSourceMetadata.key ↔
            k ∈ table.map DataSourceMetadata.key ∨ ∃ input ∈ inputs, firstKey input = some k) := by
  induction inputs generalizing table with
  | nil => exact Or.inr ⟨nofun, table, rfl, htable, fun k => by simp⟩
  | cons input inputs ih =>
    rw [scheduleBatches, List.foldlM_cons, List.forall_mem_cons]
    rcases scheduleBatch_spec (hinputs input List.mem_cons_self) htable with
      ⟨hsup, e, he⟩ | ⟨hsup, table₁, hstep, htable₁, hkeys₁⟩
    · exact Or.inl ⟨fun h => hsup h.1, e, by rw [he]; rfl⟩
    · rw [hstep]
      rcases ih (fun i hi => hinputs i (List.mem_cons_of_mem _ hi)) htable₁ with
        ⟨hrest, e, he⟩ | ⟨hrest, table', hrun, htable', hkeys'⟩
      · exact Or.inl ⟨fun h => hrest h.2, e, he⟩
      · refine Or.inr ⟨⟨hsup, hrest⟩, table', hrun, htable', fun k => ?_⟩
        rw [hkeys', hkeys₁, or_assoc]
        simp

/-- Once all items of a batch are scheduled, each of them has metadata with its definition and
params. -/
def MetadataStored (table : List DataSourceMetadata)
    (inputs : List (List (BlockRow String H) × InputItemBatch)) : Prop :=
  ∀ before input after, inputs = before ++ input :: after →
    ∀ table', scheduleBatches table (before ++ [input]) = .ok table' →
      ∀ items, scheduledItems input = .ok items →
        ∀ item ∈ items, ∃ row ∈ table', row.key = item.key ∧
          row.dataSourceDefinition = item.dataSourceDefinition ∧ row.params = item.params

/-- As long as all batches are supported, the key of every scheduled item is that of the first one
of its batch or of a batch before, or in the table from the beginning. -/
def FirstKeysSuffice (table : List DataSourceMetadata)
    (inputs : List (List (BlockRow String H) × InputItemBatch)) : Prop :=
  ∀ before input after, inputs = before ++ input :: after →
    (∀ input' ∈ before ++ [input], input'.2.IsSupported) →
      ∀ items, scheduledItems input = .ok items →
        ∀ item ∈ items, item.key ∈ table.map DataSourceMetadata.key ∨
          ∃ input' ∈ before ++ [input], firstKey input' = some item.key

/-- **All scheduled items have their metadata exactly if the first items of the batches have all
keys.** -/
theorem metadataStored_iff (hinj : Function.Injective hash)
    (hinputs : ∀ input ∈ inputs, IsInputBatch className hash input.2) (htable : Keyed hash table) :
    MetadataStored table inputs ↔ FirstKeysSuffice table inputs := by
  have hkeyed : ∀ input ∈ inputs, ∀ item ∈ input.2.items,
      item.key = sourceKey hash item.dataSourceDefinition item.params := by
    intro input hinput item hitem
    obtain ⟨config, batches, hbatches, hbatch⟩ := hinputs input hinput
    exact key_of_mem_cryptotickInputItems hbatches hbatch hitem
  refine forall_congr' fun before => forall_congr' fun input => forall_congr' fun after =>
    forall_congr' fun heq => ?_
  have hsub : ∀ i ∈ before ++ [input], i ∈ inputs := by
    intro i hi
    rw [heq, List.append_cons]
    exact List.mem_append_left after hi
  rcases scheduleBatches_spec (fun i hi => hkeyed i (hsub i hi)) htable with
    ⟨hsup, e, he⟩ | ⟨hsup, table', hrun, htable', hkeys⟩
  · rw [he]
    exact iff_of_true nofun fun h => absurd h hsup
  simp only [hrun, Except.ok.injEq, forall_eq', forall_prop_of_true hsup, ← hkeys]
  refine forall_congr' fun items => forall_congr' fun hitems => forall_congr' fun item =>
    forall_congr' fun hitem => ?_
  constructor
  · rintro ⟨row, hrow, hkey, -⟩
    exact hkey ▸ List.mem_map_of_mem hrow
  · intro hkey
    obtain ⟨row, hrow, hrowkey⟩ := List.mem_map.1 hkey
    have hmem : item ∈ input.2.items := mem_of_mem_scheduledItems hitems hitem
    have hsource := (htable' row hrow).symm.trans (hrowkey.trans
      (hkeyed input (hsub input (by simp)) item hmem))
    simp only [sourceKey, hinj.eq_iff, List.cons.injEq, HashValue.str.injEq,
      HashValue.dict.injEq] at hsource
    exact ⟨row, hrow, hrowkey, hsource.2.1, hsource.2.2.1⟩

/-- The keys of the first items suffice if no batch mixes keys. -/
theorem firstKeysSuffice_of_sameKey
    (h : ∀ input ∈ inputs, ∀ item ∈ input.2.items, ∀ item' ∈ input.2.items,
      item.key = item'.key) : FirstKeysSuffice table inputs := by
  intro before input after heq _ items hitems item hitem
  refine Or.inr ⟨input, by simp, ?_⟩
  cases items with
  | nil => cases hitem
  | cons first rest =>
    have hfirst : first ∈ input.2.items := mem_of_mem_scheduledItems hitems List.mem_cons_self
    have hkey := h input (by simp [heq]) first hfirst item
      (mem_of_mem_scheduledItems hitems hitem)
    rw [firstKey, hitems]
    exact congrArg some hkey

end Batches

/-! ### Two symbols -/

/-- The order book of a symbol on one day. -/
def bookPath (base : String) : String :=
  "limitbook_full/20230201/BINANCE_SPOT_" ++ base ++ "_USDT.csv.gz"

/-- Two files of one definition. -/
def twoSymbols (batchSize : ℕ) : DataIngestConfig Unit :=
  ⟨batchSize, [⟨(), some [(bookPath "BTC", 10), (bookPath "ETH", 20)]⟩]⟩

/-- The name of their definition. -/
def bookName (_ : Unit) : String := cryptotickL2BookIncrementalData

theorem exists_bookItem (hash : List (HashValue Instrument) → String) {base : String}
    (hbase : base = "BTC" ∨ base = "ETH") (sizeKb : ℕ) :
    ∃ item, parseS3Key bookName hash (bookPath base) sizeKb () = .ok (some item) ∧
      item.dataSourceDefinition = cryptotickL2BookIncrementalData ∧
      item.params = ⟨"BINANCE", "spot", base ++ "-" ++ "USDT"⟩ := by
  have hpath : splitChar (bookPath base) '/' =
      ["limitbook_full", "20230201", "BINANCE_SPOT_" ++ base ++ "_USDT.csv.gz"] := by
    rcases hbase with rfl | rfl <;> decide +kernel
  have hfile : splitChar ("BINANCE_SPOT_" ++ base ++ "_USDT.csv.gz") '_' =
      ["BINANCE", "SPOT", base, "USDT.csv.gz"] := by
    rcases hbase with rfl | rfl <;> decide +kernel
  have hrest : splitChar "USDT.csv.gz" '.' = ["USDT", "csv", "gz"] := by decide +kernel
  refine exists_parseS3Key bookName hash ?_ hpath hfile hrest sizeKb ()
  rcases hbase with rfl | rfl <;> decide +kernel

/-- The items of the two files. -/
theorem exists_parsedItems_twoSymbols (hash : List (HashValue Instrument) → String) :
    ∃ btc eth, (∀ batchSize, parsedItems bookName hash (twoSymbols batchSize) =
        .ok [((), btc), ((), eth)]) ∧
      btc.dataSourceDefinition = cryptotickL2BookIncrementalData ∧
      btc.params.symbol = "BTC" ++ "-" ++ "USDT" ∧ eth.params.symbol = "ETH" ++ "-" ++ "USDT" := by
  obtain ⟨btc, hbtc, hname, hparams⟩ := exists_bookItem hash (Or.inl rfl) 10
  obtain ⟨eth, heth, -, hparams'⟩ := exists_bookItem hash (Or.inr rfl) 20
  refine ⟨btc, eth, fun batchSize => ?_, hname, by rw [hparams], by rw [hparams']⟩
  have hfiles : parsedFiles bookName hash ⟨(), some [(bookPath "BTC", 10),
      (bookPath "ETH", 20)]⟩ = .ok [((), btc), ((), eth)] := by
    rw [parsedFiles]
    dsimp only
    rw [List.mapM_cons, List.mapM_cons, parsedFile, hbtc, parsedFile, heth]
    rfl
  rw [parsedItems, twoSymbols, List.mapM_cons, hfiles]
  rfl

/-- In batches of one item, both symbols get their metadata. -/
theorem metadataStored_oneSymbolEach :
    ∃ batches, cryptotickInputItems bookName paramsHash (twoSymbols 1) = .ok batches ∧
      batches.length = 2 ∧ MetadataStored []
        (batches.map fun batch => (([] : List (BlockRow String String)), batch)) := by
  obtain ⟨btc, eth, hparsed, -⟩ := exists_parsedItems_twoSymbols paramsHash
  have hbatches : cryptotickInputItems bookName paramsHash (twoSymbols 1) =
      .ok [⟨0, [btc]⟩, ⟨1, [eth]⟩] := by
    rw [cryptotickInputItems_eq, hparsed]
    rfl
  have htable : Keyed paramsHash [] := nofun
  refine ⟨_, hbatches, rfl, (metadataStored_iff paramsHash_injective
    (List.forall_mem_map.2 fun batch hbatch => ⟨twoSymbols 1, _, hbatches, hbatch⟩) htable).2 ?_⟩
  refine firstKeysSuffice_of_sameKey (List.forall_mem_map.2 fun batch hbatch => ?_)
  rcases List.mem_pair.1 hbatch with rfl | rfl <;> simp

/-- A batch of both is scheduled, and the table lacks the metadata of the second one. -/
theorem not_metadataStored_twoSymbols :
    ∃ batches, cryptotickInputItems bookName paramsHash (twoSymbols 2) = .ok batches ∧
      ¬ MetadataStored []
        (batches.map fun batch => (([] : List (BlockRow String String)), batch)) := by
  obtain ⟨btc, eth, hparsed, hname, hbtc, heth⟩ := exists_parsedItems_twoSymbols paramsHash
  have hbatches : cryptotickInputItems bookName paramsHash (twoSymbols 2) =
      .ok [⟨0, [btc, eth]⟩] := by
    rw [cryptotickInputItems_eq, hparsed]
    rfl
  refine ⟨_, hbatches, fun h => ?_⟩
  have hitems : scheduledItems (([] : List (BlockRow String String)), ⟨0, [btc, eth]⟩) =
      .ok [btc, eth] := by
    rw [scheduledItems, filterInputBatch]
    simp only [if_pos hname]
    rfl
  have hrun : scheduleBatches [] [(([] : List (BlockRow String String)), ⟨0, [btc, eth]⟩)] =
      .ok [⟨"0", btc.key, btc.dataSourceDefinition, btc.params, ""⟩] := by
    rw [scheduleBatches, List.foldlM_cons, scheduleBatch, hitems]
    rfl
  obtain ⟨row, hrow, -, -, hparams⟩ := h [] _ [] rfl _ hrun _ hitems eth (by simp)
  obtain rfl := List.mem_singleton.1 hrow
  have hsymbol : btc.params.symbol = eth.params.symbol := congrArg Instrument.symbol hparams
  rw [hbtc, heth] at hsymbol
  exact absurd hsymbol (by decide +kernel)

end Ingest

end Svoe
