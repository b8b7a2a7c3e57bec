import Mathlib.Data.List.Infix
import Svoe.Common.Frame
import Svoe.Features.FeatureKey
import Svoe.Features.Generator
import Svoe.Series.Batching

/-!
# Input items of the cryptotick pipeline

`cryptotick_input_items` parses the paths of a config into input items, skips those of tests, and
puts the items of each data source definition into batches.

* `cryptotickInputItems_eq` : the batches as a function of the parsed items.
* `cryptotickInputItems_partition` : they are a partition of the parsed items.
* `key_of_mem_cryptotickInputItems` : every item has the key of its definition and params.
-/

namespace Svoe

namespace Ingest

open Series

/-! ### Config and items -/

/-- `FeaturizerDataSourceFiles`. -/
structure DataSourceFiles (δ : Type) where
  dataSourceDefinition : δ
  filesAndSizes : Option (List (String × ℕ))
  deriving Repr

/-- What is read of `FeaturizerDataIngestConfig`. -/
structure DataIngestConfig (δ : Type) where
  batchSize : ℕ
  dataSourceFiles : List (DataSourceFiles δ)
  deriving Repr

/-- `InputItem`, a dictionary of these fields. -/
structure InputItem where
  path : String
  day : String
  sizeKb : ℕ
  key : String
  dataSourceDefinition : String
  params : Instrument
  deriving DecidableEq, Repr

/-- `InputItemBatch`. -/
structure InputItemBatch where
  batchId : ℕ
  items : List InputItem
  deriving DecidableEq, Repr

/-- `CRYPTOTICK_RAW_BUCKET_NAME`. -/
def CRYPTOTICK_RAW_BUCKET_NAME : String := "svoe-cryptotick-data"

/-! ### Parsing -/

/-- `s.split(c)`. -/
def splitChar (s : String) (c : Char) : List String := (s.toList.splitOn c).map String.ofList

/-- `parts[i]`. -/
def partAt (parts : List String) (i : ℕ) : Except PyError String :=
  match parts[i]? with
  | some part => .ok part
  | none => .error .index

/-- `s[i:j]`. -/
def slice (s : String) (i j : ℕ) : String := String.ofList ((s.toList.take j).drop i)

variable {δ : Type} (className : δ → String) (hash : List (HashValue Instrument) → String)

/-- The key of the feature that is a data source. -/
def dataSourceKey (dataSourceDefinition : δ) (params : Instrument) : String :=
  calculateKey className hash (.node { dataDefinition := dataSourceDefinition, params := params } [])

/-- `_parse_s3_key`. -/
def parseS3Key (path : String) (sizeKb : ℕ) (dataSourceDefinition : δ) :
    Except PyError (Option InputItem) :=
  if "testing".toList <:+: path.toList then .ok none
  else do
    let s := splitChar path '/'
    let rawDate ← partAt s 1
    let day := slice rawDate 6 8 ++ "-" ++ slice rawDate 4 6 ++ "-" ++ slice rawDate 0 4
    let file ← partAt s 2
    let f := splitChar file '_'
    let exchange ← partAt f 0
    let rawType ← partAt f 1
    if rawType ≠ "SPOT" then
      .error (.value ("Unknown instrument_type " ++ rawType))
    else do
      let base ← partAt f 2
      let quote ← partAt (splitChar (← partAt f 3) '.') 0
      let instrument : Instrument := ⟨exchange, "spot", base ++ "-" ++ quote⟩
      return some
        { path := "s3://" ++ CRYPTOTICK_RAW_BUCKET_NAME ++ "/" ++ path
          day := day
          sizeKb := sizeKb
          key := dataSourceKey className hash dataSourceDefinition instrument
          dataSourceDefinition := className dataSourceDefinition
          params := instrument }

/-- A path `<kind>/<date>/<exchange>_SPOT_<base>_<quote>.<extensions>` is parsed. -/
theorem exists_parseS3Key {path kind rawDate file exchange base rest quote : String}
    {extensions : List String} (hskip : ¬ "testing".toList <:+: path.toList)
    (hpath : splitChar path '/' = [kind, rawDate, file])
    (hfile : splitChar file '_' = [exchange, "SPOT", base, rest])
    (hrest : splitChar rest '.' = quote :: extensions) (sizeKb : ℕ) (d : δ) :
    ∃ item, parseS3Key className hash path sizeKb d = .ok (some item) ∧
      item.dataSourceDefinition = className d ∧
      item.params = ⟨exchange, "spot", base ++ "-" ++ quote⟩ := by
  have hok : ∀ {α β : Type} (a : α) (f : α → Except PyError β), Except.ok a >>= f = f a :=
    fun _ _ => rfl
  unfold parseS3Key
  simp only [hskip, hpath, hfile, hrest, partAt, List.getElem?_cons_zero,
    List.getElem?_cons_succ, hok, ne_eq, not_true_eq_false, if_false, pure, Except.pure]
  exact ⟨_, rfl, rfl, rfl⟩

example : (parseS3Key id (fun _ => "") "quotes/20230201/BINANCE_SPOT_BTC_USDT.csv.gz" 5 "Quotes") =
    .ok (some ⟨"s3://svoe-cryptotick-data/quotes/20230201/BINANCE_SPOT_BTC_USDT.csv.gz",
      "01-02-2023", 5, "", "Quotes", ⟨"BINANCE", "spot", "BTC-USDT"⟩⟩) := by
  decide +kernel

/-! ### Batches -/

variable [DecidableEq δ]

/-- One round of the inner loop: an item goes into the batches of its definition. -/
def addFile (batchSize : ℕ) (dataSourceDefinition : δ)
    (grouped : List (δ × List (List InputItem))) (file : String × ℕ) :
    Except PyError (List (δ × List (List InputItem))) := do
  match ← parseS3Key className hash file.1 file.2 dataSourceDefinition with
  | none => return grouped
  | some item => return pushBy batchSize grouped (dataSourceDefinition, item)

/-- One round of the outer loop. -/
def addFiles (batchSize : ℕ) (grouped : List (δ × List (List InputItem)))
    (files : DataSourceFiles δ) : Except PyError (List (δ × List (List InputItem))) :=
  match files.filesAndSizes with
  -- `for .. in None`
  | none => .error .type
  | some filesAndSizes =>
    filesAndSizes.foldlM (addFile className hash batchSize files.dataSourceDefinition) grouped

/-- Batches with their numbers from `batchId` on. -/
def numberBatches (batchId : ℕ) : List (List InputItem) → List InputItemBatch
  | [] => []
  | batch :: batches => ⟨batchId, batch⟩ :: numberBatches (batchId + 1) batches

/-- `cryptotick_input_items`. -/
def cryptotickInputItems (config : DataIngestConfig δ) : Except PyError (List InputItemBatch) := do
  let grouped ← config.dataSourceFiles.foldlM (addFiles className hash config.batchSize) []
  return numberBatches 0 (grouped.flatMap Prod.snd)

/-! ### The parsed items -/

/-- The item of a file with its definition, if it is not skipped. -/
def parsedFile (dataSourceDefinition : δ) (file : String × ℕ) :
    Except PyError (List (δ × InputItem)) :=
  (parseS3Key className hash file.1 file.2 dataSourceDefinition).map fun item =>
    item.toList.map fun item => (dataSourceDefinition, item)

/-- The items of some files. -/
def parsedFiles (files : DataSourceFiles δ) : Except PyError (List (δ × InputItem)) :=
  match files.filesAndSizes with
  | none => .error .type
  | some filesAndSizes =>
    (filesAndSizes.mapM (parsedFile className hash files.dataSourceDefinition)).map List.flatten

/-- All items that are not skipped, with their definitions and in the order of the config. -/
def parsedItems (config : DataIngestConfig δ) : Except PyError (List (δ × InputItem)) :=
  (config.dataSourceFiles.mapM (parsedFiles className hash)).map List.flatten

/-- A loop that goes on with what its rounds parse. -/
theorem foldlM_map_foldl {ε σ α β : Type} {f : α → Except ε (List β)} {g : σ → β → σ} (l : List α)
    (s : σ) : l.foldlM (fun s a => (f a).map fun bs => bs.foldl g s) s =
      ((l.mapM f).map List.flatten).map fun bs => bs.foldl g s := by
  induction l generalizing s with
  | nil => rfl
  | cons a l ih =>
    rw [List.foldlM_cons, List.mapM_cons]
    cases f a with
    | error e => rfl
    | ok bs =>
      have hrest := ih (bs.foldl g s)
      cases hl : l.mapM f with
      | error e =>
        rw [hl] at hrest
        exact hrest
      | ok bss =>
        rw [hl] at hrest
        refine hrest.trans ?_
        exact congrArg Except.ok List.foldl_append.symm

variable {className hash} {batchSize : ℕ} {config : DataIngestConfig δ}

theorem addFile_eq (dataSourceDefinition : δ) (grouped : List (δ × List (List InputItem)))
    (file : String × ℕ) :
    addFile className hash batchSize dataSourceDefinition grouped file =
      (parsedFile className hash dataSourceDefinition file).map fun es =>
        es.foldl (pushBy batchSize) grouped := by
  rw [addFile, parsedFile]
  rcases parseS3Key className hash file.1 file.2 dataSourceDefinition with e | _ | item <;> rfl

theorem addFiles_eq (grouped : List (δ × List (List InputItem))) (files : DataSourceFiles δ) :
    addFiles className hash batchSize grouped files =
      (parsedFiles className hash files).map fun es => es.foldl (pushBy batchSize) grouped := by
  rw [addFiles, parsedFiles]
  cases files.filesAndSizes with
  | none => rfl
  | some filesAndSizes =>
    have hround : addFile className hash batchSize files.dataSourceDefinition = fun grouped file =>
        (parsedFile className hash files.dataSourceDefinition file).map fun es =>
          es.foldl (pushBy batchSize) grouped := by
      funext grouped file
      exact addFile_eq files.dataSourceDefinition grouped file
    dsimp only
    rw [hround, foldlM_map_foldl]

/-- The batches, from the parsed items. -/
theorem cryptotickInputItems_eq (config : DataIngestConfig δ) :
    cryptotickInputItems className hash config =
      (parsedItems className hash config).map fun es =>
        numberBatches 0 ((batchesBy config.batchSize es).flatMap Prod.snd) := by
  have hround : addFiles className hash config.batchSize =
      fun grouped files => (parsedFiles className hash files).map fun es =>
        es.foldl (pushBy config.batchSize) grouped := by
    funext grouped files
    exact addFiles_eq grouped files
  rw [cryptotickInputItems, hround, foldlM_map_foldl]
  change ((parsedItems className hash config).map _ >>= _) = _
  cases parsedItems className hash config <;> rfl

/-! ### The partition -/

theorem map_items_numberBatches (batchId : ℕ) (batches : List (List InputItem)) :
    (numberBatches batchId batches).map InputItemBatch.items = batches := by
  induction batches generalizing batchId with
  | nil => rfl
  | cons batch batches ih => rw [numberBatches, List.map_cons, ih]

theorem map_batchId_numberBatches (batchId : ℕ) (batches : List (List InputItem)) :
    (numberBatches batchId batches).map InputItemBatch.batchId =
      List.range' batchId batches.length := by
  induction batches generalizing batchId with
  | nil => rfl
  | cons batch batches ih =>
    rw [numberBatches, List.map_cons, ih, List.length_cons, List.range'_succ]

/-- The batches are a partition of the items: `labels` are the batches with their definitions. -/
structure BatchPartition (batchSize : ℕ) (es : List (δ × InputItem))
    (batches : List InputItemBatch) (labels : List (δ × InputItemBatch)) : Prop where
  labels_eq : labels.map Prod.snd = batches
  ids : batches.map InputItemBatch.batchId = List.range batches.length
  ne_nil : ∀ batch ∈ batches, batch.items ≠ []
  length_le : ∀ batch ∈ batches, batch.items.length ≤ batchSize
  single : ∀ label ∈ labels, ∀ item ∈ label.2.items, (label.1, item) ∈ es
  -- the concatenation for each definition, and all batches but its last one full
  batched : ∀ d, Batched batchSize ((ofKey labels d).map InputItemBatch.items) (ofKey es d)

/-- The numbered batches of some definitions. -/
def numberLabelled (batches : List (δ × List InputItem)) : List (δ × InputItemBatch) :=
  (batches.map Prod.fst).zip (numberBatches 0 (batches.map Prod.snd))

omit [DecidableEq δ] in
theorem map_snd_numberLabelled (batches : List (δ × List InputItem)) :
    (numberLabelled batches).map Prod.snd = numberBatches 0 (batches.map Prod.snd) := by
  refine List.map_snd_zip ?_
  have hlength := congrArg List.length (map_items_numberBatches 0 (batches.map Prod.snd))
  rw [List.length_map] at hlength
  rw [hlength, List.length_map, List.length_map]

omit [DecidableEq δ] in
theorem map_items_numberLabelled (batches : List (δ × List InputItem)) :
    (numberLabelled batches).map (Prod.map id InputItemBatch.items) = batches := by
  rw [numberLabelled, ← List.zip_map_right, map_items_numberBatches]
  exact (List.zip_of_prod rfl rfl).symm

theorem ofKey_map_items (labels : List (δ × InputItemBatch)) (d : δ) :
    ofKey (labels.map (Prod.map id InputItemBatch.items)) d =
      (ofKey labels d).map InputItemBatch.items := by
  rw [ofKey, ofKey, List.filter_map, List.map_map, List.map_map]
  rfl

/-- Numbered batches of the items of each definition are a partition. -/
theorem batchPartition_numberLabelled (hsize : 1 ≤ batchSize) (es : List (δ × InputItem)) :
    BatchPartition batchSize es
      (numberBatches 0 ((batchesBy batchSize es).flatMap Prod.snd))
      (numberLabelled (labelled (batchesBy batchSize es))) := by
  have hlabels : numberBatches 0 ((batchesBy batchSize es).flatMap Prod.snd) =
      numberBatches 0 ((labelled (batchesBy batchSize es)).map Prod.snd) := by
    rw [labelled, List.map_flatMap]
    congr 2
    funext p
    rw [List.map_map]
    exact (List.map_id p.2).symm
  have hbatched : ∀ d, Batched batchSize
      ((ofKey (numberLabelled (labelled (batchesBy batchSize es))) d).map InputItemBatch.items)
      (ofKey es d) := by
    intro d
    rw [← ofKey_map_items, map_items_numberLabelled]
    exact batched_ofKey_labelled hsize es d
  have hmem : ∀ label ∈ numberLabelled (labelled (batchesBy batchSize es)),
      label.2.items ∈ (ofKey (numberLabelled (labelled (batchesBy batchSize es))) label.1).map
        InputItemBatch.items :=
    fun label hlabel => List.mem_map_of_mem (mem_ofKey hlabel)
  have hbatch : ∀ batch ∈ numberBatches 0 ((batchesBy batchSize es).flatMap Prod.snd),
      ∃ label ∈ numberLabelled (labelled (batchesBy batchSize es)), label.2 = batch := by
    intro batch hbatch
    rw [hlabels, ← map_snd_numberLabelled] at hbatch
    exact List.mem_map.1 hbatch
  refine ⟨by rw [hlabels, map_snd_numberLabelled], ?_, ?_, ?_, ?_, hbatched⟩
  · have hlength := congrArg List.length
      (map_items_numberBatches 0 ((batchesBy batchSize es).flatMap Prod.snd))
    rw [List.length_map] at hlength
    rw [map_batchId_numberBatches, hlength, List.range_eq_range']
  · intro batch hb
    obtain ⟨label, hlabel, rfl⟩ := hbatch batch hb
    exact (hbatched label.1).ne_nil _ (hmem label hlabel)
  · intro batch hb
    obtain ⟨label, hlabel, rfl⟩ := hbatch batch hb
    exact (hbatched label.1).length_le _ (hmem label hlabel)
  · intro label hlabel item hitem
    have hbatchOf := List.mem_map_of_mem (f := Prod.map id InputItemBatch.items) hlabel
    rw [map_items_numberLabelled] at hbatchOf
    exact mem_of_mem_labelled hbatchOf hitem

/-- **The batches are a partition of the parsed items**, if all files can be parsed. -/
theorem cryptotickInputItems_partition (hsize : 1 ≤ config.batchSize) :
    (∀ e, parsedItems className hash config = .error e →
        cryptotickInputItems className hash config = .error e) ∧
      ∀ es, parsedItems className hash config = .ok es → ∃ batches labels,
        cryptotickInputItems className hash config = .ok batches ∧
          BatchPartition config.batchSize es batches labels := by
  rw [cryptotickInputItems_eq]
  constructor
  · intro e he
    rw [he]
    rfl
  · intro es hes
    rw [hes]
    exact ⟨_, numberLabelled (labelled (batchesBy config.batchSize es)), rfl,
      batchPartition_numberLabelled hsize es⟩

/-! ### Keys -/

/-- The key of a data source hashes its definition's name and its params. -/
def sourceKey (hash : List (HashValue Instrument) → String) (dataSourceDefinition : String)
    (params : Instrument) : String :=
  hash [.bool false, .str dataSourceDefinition, .dict params]

omit [DecidableEq δ] in
theorem dataSourceKey_eq (d : δ) (params : Instrument) :
    dataSourceKey className hash d params = sourceKey hash (className d) params := by
  rw [dataSourceKey, calculateKey, RoseTree.fold]
  rfl

omit [DecidableEq δ] in
theorem key_of_parseS3Key {path : String} {sizeKb : ℕ} {d : δ} {item : InputItem}
    (h : parseS3Key className hash path sizeKb d = .ok (some item)) :
    item.key = sourceKey hash item.dataSourceDefinition item.params := by
  unfold parseS3Key at h
  split_ifs at h
  · cases h
  · simp only [bind_eq_ok_iff] at h
    obtain ⟨rawDate, -, file, -, exchange, -, rawType, -, h⟩ := h
    split_ifs at h
    simp only [bind_eq_ok_iff] at h
    obtain ⟨base, -, rest, -, quote, -, h⟩ := h
    obtain rfl := Option.some.inj (Except.ok.inj h)
    exact dataSourceKey_eq d _

omit [DecidableEq δ] in
theorem key_of_mem_parsedItems {es : List (δ × InputItem)} {e : δ × InputItem}
    (h : parsedItems className hash config = .ok es) (he : e ∈ es) :
    e.2.key = sourceKey hash e.2.dataSourceDefinition e.2.params := by
  obtain ⟨ess, hess, rfl⟩ := map_eq_ok_iff.1 h
  obtain ⟨es', hes', he⟩ := List.mem_flatten.1 he
  obtain ⟨files, -, hfiles⟩ := exists_of_mem_mapM hess hes'
  rw [parsedFiles] at hfiles
  cases hsizes : files.filesAndSizes with
  | none =>
    rw [hsizes] at hfiles
    cases hfiles
  | some filesAndSizes =>
    rw [hsizes] at hfiles
    obtain ⟨ess', hess', rfl⟩ := map_eq_ok_iff.1 hfiles
    obtain ⟨es'', hes'', he⟩ := List.mem_flatten.1 he
    obtain ⟨file, -, hfile⟩ := exists_of_mem_mapM hess' hes''
    obtain ⟨item?, hparse, rfl⟩ := map_eq_ok_iff.1 hfile
    obtain ⟨item, hitem, rfl⟩ := List.mem_map.1 he
    obtain rfl := Option.mem_toList.1 hitem
    exact key_of_parseS3Key hparse

/-- Every item of the batches has the key of its definition and params. -/
theorem key_of_mem_cryptotickInputItems {batches : List InputItemBatch} {batch : InputItemBatch}
    {item : InputItem} (h : cryptotickInputItems className hash config = .ok batches)
    (hbatch : batch ∈ batches) (hitem : item ∈ batch.items) :
    item.key = sourceKey hash item.dataSourceDefinition item.params := by
  rw [cryptotickInputItems_eq] at h
  obtain ⟨es, hes, rfl⟩ := map_eq_ok_iff.1 h
  have hitems := List.mem_map_of_mem (f := InputItemBatch.items) hbatch
  rw [map_items_numberBatches] at hitems
  obtain ⟨p, hp, hbatch⟩ := List.mem_flatMap.1 hitems
  have hlabelled : (p.1, batch.items) ∈ labelled (batchesBy config.batchSize es) :=
    List.mem_flatMap.2 ⟨p, hp, List.mem_map_of_mem hbatch⟩
  exact key_of_mem_parsedItems hes (mem_of_mem_labelled hlabelled hitem)

/-- The hashed values with the params as numbers. -/
def encodeParams : HashValue Instrument → HashValue ℕ
  | .bool b => .bool b
  | .str s => .str s
  | .dict d => .dict (Encodable.encode
      ([d.exchange, d.instrumentType, d.symbol].map fun s => s.toList.map Char.toNat))

/-- A hash of params without collisions. -/
def paramsHash (values : List (HashValue Instrument)) : String :=
  unaryHash (values.map encodeParams)

theorem paramsHash_injective : Function.Injective paramsHash := by
  have hchar : Function.Injective fun s : String => s.toList.map Char.toNat := by
    intro s t h
    have hnat : Function.Injective Char.toNat := fun c d h => Char.ext (UInt32.toNat_inj.1 h)
    exact String.toList_inj.1 (hnat.list_map h)
  have hencode : Function.Injective encodeParams := by
    intro a b h
    cases a <;> cases b <;>
      simp only [encodeParams, HashValue.bool.injEq, HashValue.str.injEq,
        HashValue.dict.injEq, reduceCtorEq] at h ⊢
    · exact h
    · exact h
    · have hparams := hchar.list_map (Encodable.encode_injective h)
      rename_i d d'
      cases d
      cases d'
      simpa using hparams
  exact fun _ _ h => hencode.list_map (unaryHash_injective h)

/-- Files of two definitions, in batches of at most two. -/
def threeFiles : DataIngestConfig String :=
  ⟨2, [⟨"CryptotickTradesData", some [("trades/20230201/BINANCE_SPOT_BTC_USDT.csv.gz", 10),
      ("trades/20230201/BINANCE_SPOT_ETH_USDT.csv.gz", 20)]⟩,
    ⟨"CryptotickL2BookIncrementalData",
      some [("limitbook_full/20230201/BINANCE_SPOT_BTC_USDT.csv.gz", 30)]⟩]⟩

theorem cryptotickInputItems_partition_threeFiles :
    (∀ e, parsedItems id paramsHash threeFiles = .error e →
        cryptotickInputItems id paramsHash threeFiles = .error e) ∧
      ∀ es, parsedItems id paramsHash threeFiles = .ok es → ∃ batches labels,
        cryptotickInputItems id paramsHash threeFiles = .ok batches ∧
          BatchPartition 2 es batches labels := by
  have hsize : 1 ≤ threeFiles.batchSize := by decide
  exact cryptotickInputItems_partition hsize

end Ingest

end Svoe
