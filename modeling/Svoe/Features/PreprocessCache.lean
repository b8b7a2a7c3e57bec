import Svoe.Common.Frame
import Svoe.L2Book.Preprocess
import Svoe.Series.Memo

/-!
# The cache of preprocessed frames

`DataDefinition.preprocess` looks its frame up in a cache on disk that all data definitions share.
The key is a hash of the values and the index of the frame: neither the definition nor the names of
the columns go into it.

* `preprocess_eq_memoCall` : a call goes through a memo table.
* `preprocessCalls_transparent_iff` : when the cache goes unnoticed.
-/

namespace Svoe

/-- A pandas data frame. -/
structure DataFrame (ι ν : Type*) where
  columns : List String
  index : List ι
  values : List (List ν)
  deriving DecidableEq

section Cache

variable {ι ν κ D V : Type*} [DecidableEq κ]

/-- `hash_df`; `hashValues` is the hash that pandas and sha1 make of values and index. -/
def hashDf (hashValues : List ι × List (List ν) → κ) (df : DataFrame ι ν) : κ :=
  hashValues (df.index, df.values)

/-- `DataDefinition.preprocess`: the cache after the call, and what the call returns. -/
def preprocess (hashValues : List ι × List (List ν) → κ) (isDataFrame : V → Bool)
    (preprocessImpl : D → DataFrame ι ν → Except PyError V) (cache : κ → Option V)
    (call : D × DataFrame ι ν) : (κ → Option V) × Except PyError V :=
  let key := hashDf hashValues call.2
  let compute (cache : κ → Option V) : (κ → Option V) × Except PyError V :=
    match preprocessImpl call.1 call.2 with
    | .ok res => (Function.update cache key (some res), .ok res)
    | .error e => (cache, .error e)
  match cache key with
  | some cachedDf =>
    if isDataFrame cachedDf then (cache, .ok cachedDf)
    -- malformed: deleted, and computed again
    else compute (Function.update cache key none)
  | none => compute cache

/-- What a sequence of calls returns, from an empty cache on. -/
def preprocessCalls (hashValues : List ι × List (List ν) → κ) (isDataFrame : V → Bool)
    (preprocessImpl : D → DataFrame ι ν → Except PyError V) (calls : List (D × DataFrame ι ν)) :
    List (Except PyError V) :=
  (Series.accumulate (preprocess hashValues isDataFrame preprocessImpl) (fun _ => none) calls).2

variable {hashValues : List ι × List (List ν) → κ} {isDataFrame : V → Bool}
  {preprocessImpl : D → DataFrame ι ν → Except PyError V}

theorem preprocess_eq_memoCall :
    preprocess hashValues isDataFrame preprocessImpl =
      Series.memoCall (fun call => hashDf hashValues call.2) isDataFrame
        fun call => preprocessImpl call.1 call.2 := by
  funext cache call
  simp only [preprocess, Series.memoCall, Series.memoCompute]
  cases cache (hashDf hashValues call.2) <;> cases preprocessImpl call.1 call.2 <;> rfl

/-- **When the cache goes unnoticed**: exactly when, of any two calls with frames of the same values
and index, the later one has the result of the earlier one (if that is a frame, so that it is kept). -/
theorem preprocessCalls_transparent_iff (hinj : Function.Injective hashValues)
    {calls : List (D × DataFrame ι ν)} :
    preprocessCalls hashValues isDataFrame preprocessImpl calls =
        calls.map (fun call => preprocessImpl call.1 call.2) ↔
      calls.Pairwise fun c c' => c.2.index = c'.2.index → c.2.values = c'.2.values →
        ∀ res, preprocessImpl c.1 c.2 = .ok res → isDataFrame res = true →
          preprocessImpl c'.1 c'.2 = .ok res := by
  rw [preprocessCalls, preprocess_eq_memoCall, Series.accumulate_memoCall_eq_iff]
  simp only [hashDf, hinj.eq_iff, Prod.mk.injEq, and_imp]

end Cache

/-! ### Incremental frames by column names -/

/-- A value of an incremental frame. -/
inductive Cell where
  | num (x : ℚ)
  | str (s : String)
  deriving DecidableEq

/-- A number of a row: the column is found by its name. -/
def numCell (row : List (String × Cell)) (column : String) : Except PyError ℚ :=
  match row.lookup column with
  | some (.num x) => .ok x
  | some (.str _) => .error .type
  | none => .error (.key column)

/-- A text of a row that stands for one of some values. -/
def strCell {β : Type} (texts : List (String × β)) (row : List (String × Cell)) (column : String) :
    Except PyError β :=
  match row.lookup column with
  | some (.str s) => ((texts.lookup s).map Except.ok).getD (.error .type)
  | some (.num _) => .error .type
  | none => .error (.key column)

/-- A row of an incremental frame, by the names of its columns.  (Cells of other types are not
those of such a frame.) -/
def readL2Row (row : List (String × Cell)) : Except PyError L2Row := do
  let timestamp ← numCell row "timestamp"
  let receiptTimestamp ← numCell row "receipt_timestamp"
  let updateType ← strCell
    [("ADD", .add), ("SET", .set), ("SNAPSHOT", .snapshot), ("SUB", .sub)] row "update_type"
  let side ← strCell [("bid", .bid), ("ask", .ask)] row "side"
  let price ← numCell row "price"
  let size ← numCell row "size"
  return ⟨timestamp, receiptTimestamp, updateType, side, price, size⟩

/-- `CryptotickL2BookIncrementalData.preprocess_impl` of a frame with column names. -/
def cryptotickPreprocessImpl (df : DataFrame ℕ Cell) : Except PyError (List CryptotickEvent) :=
  (df.values.mapM fun row => readL2Row (df.columns.zip row)).map preprocessImpl

/-- A frame of one row, with the last two columns named as given. -/
def oneRowFrame (column column' : String) : DataFrame ℕ Cell :=
  ⟨["timestamp", "receipt_timestamp", "update_type", "side", column, column'], [0],
    [[.num 0, .num 0, .str "SNAPSHOT", .str "bid", .num 100, .num 3]]⟩

theorem preprocessCalls_transparent_oneRowFrame :
    preprocessCalls id (fun _ => true) (fun _ : Unit => cryptotickPreprocessImpl)
        [((), oneRowFrame "price" "size"), ((), oneRowFrame "price" "size")] =
      [cryptotickPreprocessImpl (oneRowFrame "price" "size"),
        cryptotickPreprocessImpl (oneRowFrame "price" "size")] :=
  (preprocessCalls_transparent_iff Function.injective_id).2
    (List.pairwise_pair.2 fun _ _ _ h _ => h)

/-- Frames with the same values under `price` and `size` the other way round: the second call is
answered with the events of the first frame. -/
theorem not_transparent_oneRowFrame :
    preprocessCalls id (fun _ => true) (fun _ : Unit => cryptotickPreprocessImpl)
        [((), oneRowFrame "price" "size"), ((), oneRowFrame "size" "price")] ≠
      [cryptotickPreprocessImpl (oneRowFrame "price" "size"),
        cryptotickPreprocessImpl (oneRowFrame "size" "price")] := by
  decide +kernel

end Svoe
