import Svoe.Common.Dict
import Svoe.Common.FrameSplit
import Svoe.Series.Filled
import Svoe.Transition.While

/-!
# The distribution of symbols over pods

`_distribute_symbols` of the config builder gives every pod a bucket of symbols.  With
`reuse_index` it takes the blocks of the resource index that have a symbol; without it the symbols
are sorted by trading volume and paired or filled into buckets by the strategy.  The volumes come
from a ticker service, and the threshold of a bucket is their mean.

* `Filled.push`, `Filled.new` : greedy filling, one item at a time.
* `BucketInv.bucketRound` : what a round of the greedy loop keeps.
* `distributeSymbols_sorted` : the strategies without the index use every symbol once.
-/

namespace Svoe

namespace DataFeed

open Series Transition

variable {α β : Type}

/-- What `_distribute_symbols` uses of cryptofeed's `Symbol`. -/
structure SymbolText (α : Type) where
  normalized : α → String
  base : α → String

/-- What `_distribute_symbols` reads of an entry of `RESOURCE_INDEX`. -/
structure ResourceEntry where
  /-- The symbols, by exchange and channel. -/
  payloadConfig : List (String × List (String × List String))
  symbolDistributions : List String
  deriving DecidableEq, Repr

/-- `RESOURCE_INDEX`, by payload hash. -/
abbrev ResourceIndex := List (String × ResourceEntry)

/-- `l[i]`. -/
def itemAt (l : List β) (i : ℕ) : Except PyError β :=
  match l[i]? with
  | none => .error .index
  | some x => .ok x

/-- The dict with `dist[i] = buckets[i]`. -/
def enumerate (l : List β) : List (ℕ × β) := l.zipIdx.map Prod.swap

/-! ### Reusing the index -/

section Reuse

variable (api : SymbolText α)

/-- `to_remove`, for the name `s`. -/
def toRemove (symbols : List α) (s : String) : List ℕ :=
  (List.range symbols.length).filter fun i => symbols[i]?.map api.normalized = some s

/-- A round of `for i in to_remove`, on the symbols and the bucket. -/
def takeAt (st : List α × List α) (i : ℕ) : Except PyError (List α × List α) :=
  (itemAt st.1 i).map fun symbol => (st.1.eraseIdx i, st.2 ++ [symbol])

/-- A round of `for s in payload_symbols`. -/
def takeName (st : List α × List α) (s : String) : Except PyError (List α × List α) :=
  (toRemove api st.1 s).foldlM takeAt st

/-- `_exchange` and `payload_symbols` of an entry. -/
def payloadSymbols (entry : ResourceEntry) : Except PyError (String × List String) := do
  let (exchange, channels) ← itemAt entry.payloadConfig 0
  let (_, symbols) ← itemAt channels 0
  return (exchange, symbols)

/-- What a scan of the index changes. -/
structure ReuseScan (α : Type) where
  symbols : List α
  buckets : List (List α)
  blockHash : Option String

/-- A round of the scan for `symbol`.  It goes on when a block is found. -/
def scanPayload (exchange strategy : String) (symbol : α) (scan : ReuseScan α)
    (payload : String × ResourceEntry) : Except PyError (ReuseScan α) :=
  if strategy ∈ payload.2.symbolDistributions then do
    let (payloadExchange, names) ← payloadSymbols payload.2
    if payloadExchange = exchange ∧ api.normalized symbol ∈ names then
      let (symbols, bucket) ← names.foldlM (takeName api) (scan.symbols, [])
      return ⟨symbols, scan.buckets ++ [bucket], some payload.1⟩
    else return scan
  else return scan

/-- A round of `while len(symbols) > 0`, on the symbols and the buckets. -/
def reuseRound (index : ResourceIndex) (exchange strategy : String)
    (st : List α × List (List α)) :
    Except PyError (List α × List (List α) ⊕ List α × List (List α)) :=
  match st.1 with
  | [] => .ok (.inr st)
  | symbol :: _ => do
    let scan ← index.foldlM (scanPayload api exchange strategy symbol) ⟨st.1, st.2, none⟩
    match scan.blockHash with
    | none => return .inr (scan.symbols, scan.buckets)
    | some _ => return .inl (scan.symbols, scan.buckets)

/-- `leftovers`: the symbols in buckets of 4. -/
def leftovers (symbols : List α) : List (List α) :=
  (List.range' 0 ((symbols.length + 3) / 4) 4).map fun i => slice symbols (i, i + 4)

/-- The distribution that reuses the index. -/
def reuseDistribution (index : ResourceIndex) (exchange strategy : String) (symbols : List α)
    (rounds : ℕ) : Option (Except PyError (List (ℕ × List α))) :=
  (iterate (reuseRound api index exchange strategy) rounds (symbols, [])).map
    (Except.map fun st => enumerate (st.2 ++ leftovers st.1))

end Reuse

/-! ### By trading volume -/

section Volume

variable (api : SymbolText α) (quoteVolume : String → ℕ)

/-- `int(float(tickers[s.base + '/USDT']['info']['quoteVolume']))`. -/
def tradingVolume (s : α) : ℕ := quoteVolume (api.base s ++ "/USDT")

/-- `_sort_by_binance_usdt_trading_vol` with `reverse=True`: a stable sort. -/
def sortByTradingVol (symbols : List α) : List α :=
  symbols.insertionSort fun s t => tradingVolume api quoteVolume t ≤ tradingVolume api quoteVolume s

/-- `ONE_TO_ONE`. -/
def oneToOne (sortedSymbols : List α) : List (ℕ × List α) :=
  enumerate (sortedSymbols.map fun s => [s])

/-- The loop of `LARGEST_WITH_SMALLEST`, over what is left of the range. -/
def pairLoop (sortedSymbols : List α) (dist : List (ℕ × List α)) :
    List ℕ → Except PyError (List (ℕ × List α))
  | [] => .ok dist
  | i :: is => do
    let j := sortedSymbols.length - i - 1
    if i < j then
      let largest ← itemAt sortedSymbols i
      let smallest ← itemAt sortedSymbols j
      pairLoop sortedSymbols (dictSet dist i [largest, smallest]) is
    else if i = j then
      let middle ← itemAt sortedSymbols i
      pairLoop sortedSymbols (dictSet dist i [middle]) is
    else return dist

/-- `LARGEST_WITH_SMALLEST`. -/
def largestWithSmallest (sortedSymbols : List α) : Except PyError (List (ℕ × List α)) :=
  pairLoop sortedSymbols [] (List.range sortedSymbols.length)

/-- The variables of `EQUAL_BUCKETS`. -/
structure BucketState (α : Type) where
  dist : List (ℕ × List α) := []
  distSumVols : List (ℕ × ℕ) := []
  index : ℕ := 0
  i : ℕ := 0

/-- `limit_per_bucket`. -/
def limitPerBucket : ℕ := 4

/-- A round of the loop of `EQUAL_BUCKETS`. -/
def bucketRound (sortedSymbols : List α) (volumes : List ℕ) (thresh : ℚ) (st : BucketState α) :
    Except PyError (BucketState α ⊕ List (ℕ × List α)) :=
  if st.i < sortedSymbols.length then
    match dictGet st.dist st.index with
    | none => do
      let symbol ← itemAt sortedSymbols st.i
      let volume ← itemAt volumes st.i
      return .inl { st with
        dist := dictSet st.dist st.index [symbol]
        distSumVols := dictSet st.distSumVols st.index volume
        i := st.i + 1 }
    | some bucket =>
      match dictGet st.distSumVols st.index with
      | none => .error (.key (toString st.index))
      | some sum =>
        if sum < thresh ∧ bucket.length < limitPerBucket then do
          let symbol ← itemAt sortedSymbols st.i
          let volume ← itemAt volumes st.i
          return .inl { st with
            dist := dictSet st.dist st.index (bucket ++ [symbol])
            distSumVols := dictSet st.distSumVols st.index (sum + volume)
            i := st.i + 1 }
        else return .inl { st with index := st.index + 1 }
  else .ok (.inr st.dist)

/-- `EQUAL_BUCKETS`. -/
def equalBuckets (sortedSymbols : List α) (volumes : List ℕ) (thresh : ℚ) (rounds : ℕ) :
    Option (Except PyError (List (ℕ × List α))) :=
  iterate (bucketRound sortedSymbols volumes thresh) rounds {}

/-- `_distribute_symbols`; `mean` is `np.mean`. -/
def distributeSymbols (index : ResourceIndex) (mean : List ℕ → ℚ) (exchange : String)
    (symbols : List α) (strategy : String) (reuseIndex : Bool) (rounds : ℕ) :
    Option (Except PyError (List (ℕ × List α))) :=
  if reuseIndex then reuseDistribution api index exchange strategy symbols rounds
  else
    let sortedSymbols := sortByTradingVol api quoteVolume symbols
    let volumes := sortedSymbols.map (tradingVolume api quoteVolume)
    if strategy = "ONE_TO_ONE" then some (.ok (oneToOne sortedSymbols))
    else if strategy = "LARGEST_WITH_SMALLEST" then some (largestWithSmallest sortedSymbols)
    else if strategy = "EQUAL_BUCKETS" then
      equalBuckets sortedSymbols volumes (mean volumes) rounds
    else some (.error (.value s!"Unsupported pod distribution strategy for {exchange}"))

end Volume

/-! ### Numbered buckets -/

section Enumerate

variable {l : List β} {x y : β}

theorem enumerate_append_singleton (l : List β) (x : β) :
    enumerate (l ++ [x]) = enumerate l ++ [(l.length, x)] := by
  rw [enumerate, List.zipIdx_append, List.map_append, Nat.zero_add]
  rfl

theorem map_fst_enumerate (l : List β) : (enumerate l).map Prod.fst = List.range l.length := by
  induction l using List.reverseRecOn with
  | nil => rfl
  | append_singleton l x ih =>
    rw [enumerate_append_singleton, List.map_append, ih, List.length_append, List.length_singleton,
      List.range_succ]
    rfl

theorem map_snd_enumerate (l : List β) : (enumerate l).map Prod.snd = l := by
  induction l using List.reverseRecOn with
  | nil => rfl
  | append_singleton l x ih =>
    rw [enumerate_append_singleton, List.map_append, ih]
    rfl

theorem length_not_mem_keys (l : List β) : l.length ∉ (enumerate l).map Prod.fst := by
  rw [map_fst_enumerate]
  exact List.not_mem_range_self

theorem dictGet_enumerate_length (l : List β) : dictGet (enumerate l) l.length = none :=
  dictGet_eq_none_iff.2 (length_not_mem_keys l)

theorem dictGet_enumerate_last (l : List β) (x : β) :
    dictGet (enumerate (l ++ [x])) l.length = some x := by
  rw [enumerate_append_singleton]
  exact dictGet_append_cons (length_not_mem_keys l)

theorem dictSet_enumerate_length (l : List β) (x : β) :
    dictSet (enumerate l) l.length x = enumerate (l ++ [x]) := by
  rw [dictSet_of_not_mem (length_not_mem_keys l), enumerate_append_singleton]

theorem dictSet_enumerate_last (l : List β) (x y : β) :
    dictSet (enumerate (l ++ [x])) l.length y = enumerate (l ++ [y]) := by
  rw [enumerate_append_singleton, dictSet_append_cons (length_not_mem_keys l),
    enumerate_append_singleton]

end Enumerate

/-! ### Greedy buckets -/

section EqualBuckets

variable {sortedSymbols : List α} {volume : α → ℕ} {thresh : ℚ} {st st' : BucketState α}
  {closed : List (List α)} {current : Option (List α)} {bucket : List α} {i : ℕ}

/-- The sum of a bucket's volumes has reached the threshold, or the bucket has 4 symbols. -/
def Closed (volume : α → ℕ) (thresh : ℚ) (bucket : List α) : Prop :=
  thresh ≤ ((bucket.map volume).sum : ℕ) ∨ bucket.length = limitPerBucket

/-- The variables at symbol `i`, with the closed buckets and the current one, if it is begun. -/
def bucketState (volume : α → ℕ) (closed : List (List α)) (current : Option (List α)) (i : ℕ) :
    BucketState α where
  dist := enumerate (closed ++ current.toList)
  distSumVols := enumerate ((closed ++ current.toList).map fun b => (b.map volume).sum)
  index := closed.length
  i := i

theorem itemAt_of_lt {l : List β} {i : ℕ} (h : i < l.length) : itemAt l i = .ok l[i] := by
  rw [itemAt, List.getElem?_eq_getElem h]

theorem itemAt_map_of_lt (volume : α → ℕ) (h : i < sortedSymbols.length) :
    itemAt (sortedSymbols.map volume) i = .ok (volume sortedSymbols[i]) := by
  rw [itemAt_of_lt (by rwa [List.length_map]), List.getElem_map]

theorem length_enumerate (l : List β) : (enumerate l).length = l.length := by
  rw [enumerate, List.length_map, List.length_zipIdx]

/-- There is no current bucket: the symbol gets a new one. -/
theorem bucketRound_none (thresh : ℚ) (closed : List (List α)) (hi : i < sortedSymbols.length) :
    bucketRound sortedSymbols (sortedSymbols.map volume) thresh (bucketState volume closed none i) =
      .ok (.inl (bucketState volume closed (some [sortedSymbols[i]]) (i + 1))) := by
  have hsums := dictSet_enumerate_length (closed.map fun b => (b.map volume).sum)
  simp only [List.length_map] at hsums
  simp only [bucketRound, bucketState, Option.toList_none, List.append_nil, if_pos hi,
    dictGet_enumerate_length, itemAt_of_lt hi, itemAt_map_of_lt volume hi,
    dictSet_enumerate_length, hsums, Option.toList_some, List.map_append]
  rfl

/-- The current bucket is not closed: the symbol goes into it. -/
theorem bucketRound_of_not_closed (closed : List (List α)) (hi : i < sortedSymbols.length)
    (hbucket : ¬ Closed volume thresh bucket) (hlength : bucket.length ≤ limitPerBucket) :
    bucketRound sortedSymbols (sortedSymbols.map volume) thresh
        (bucketState volume closed (some bucket) i) =
      .ok (.inl (bucketState volume closed (some (bucket ++ [sortedSymbols[i]])) (i + 1))) := by
  obtain ⟨hsum, hne⟩ := not_or.1 hbucket
  have hroom : ((bucket.map volume).sum : ℕ) < thresh ∧ bucket.length < limitPerBucket :=
    ⟨not_le.1 hsum, lt_of_le_of_ne hlength hne⟩
  have hget := dictGet_enumerate_last (closed.map fun b => (b.map volume).sum)
    (bucket.map volume).sum
  have hset := dictSet_enumerate_last (closed.map fun b => (b.map volume).sum)
    (bucket.map volume).sum
  simp only [List.length_map] at hget hset
  simp only [bucketRound, bucketState, Option.toList_some, if_pos hi, dictGet_enumerate_last,
    List.map_append, List.map_singleton, hget, if_pos hroom, itemAt_of_lt hi,
    itemAt_map_of_lt volume hi, dictSet_enumerate_last, hset, List.sum_append, List.sum_singleton]
  rfl

/-- The current bucket is closed: the next one is to begin. -/
theorem bucketRound_of_closed (closed : List (List α)) (hi : i < sortedSymbols.length)
    (hbucket : Closed volume thresh bucket) :
    bucketRound sortedSymbols (sortedSymbols.map volume) thresh
        (bucketState volume closed (some bucket) i) =
      .ok (.inl (bucketState volume (closed ++ [bucket]) none i)) := by
  have hfull : ¬ (((bucket.map volume).sum : ℕ) < thresh ∧ bucket.length < limitPerBucket) := by
    rintro ⟨hsum, hlt⟩
    exact hbucket.elim (not_le.2 hsum) hlt.ne
  have hget := dictGet_enumerate_last (closed.map fun b => (b.map volume).sum)
    (bucket.map volume).sum
  rw [List.length_map] at hget
  simp only [bucketRound, bucketState, Option.toList_some, if_pos hi, dictGet_enumerate_last,
    List.map_append, List.map_singleton, hget, if_neg hfull, Option.toList_none, List.append_nil,
    List.length_append, List.length_singleton]
  rfl

/-- What the loop keeps. -/
structure BucketInv (volume : α → ℕ) (thresh : ℚ) (sortedSymbols : List α) (st : BucketState α)
    (closed : List (List α)) (current : Option (List α)) : Prop where
  state : st = bucketState volume closed current st.i
  i_le : st.i ≤ sortedSymbols.length
  filled : Filled (Closed volume thresh) (sortedSymbols.take st.i) (closed ++ current.toList)
  isClosed : ∀ b ∈ closed, Closed volume thresh b

/-- Either the symbols get fewer, or a current bucket is closed. -/
def bucketsLeft (sortedSymbols : List α) (st : BucketState α) : ℕ :=
  2 * (sortedSymbols.length - st.i) + (st.dist.length - st.index)

theorem length_le_limitPerBucket {items : List α} {buckets : List (List α)}
    (h : Filled (Closed volume thresh) items buckets) (hbucket : bucket ∈ buckets) :
    bucket.length ≤ limitPerBucket :=
  h.length_le (by decide) (fun _ hb => .inr hb) hbucket

/-- **One round.** -/
theorem BucketInv.bucketRound (h : BucketInv volume thresh sortedSymbols st closed current)
    (hi : st.i < sortedSymbols.length) : ∃ st',
    bucketRound sortedSymbols (sortedSymbols.map volume) thresh st = .ok (.inl st') ∧
      (∃ closed' current', BucketInv volume thresh sortedSymbols st' closed' current') ∧
      bucketsLeft sortedSymbols st' < bucketsLeft sortedSymbols st := by
  have hfilled := h.filled
  have hnext := List.take_append_getElem hi
  rw [h.state]
  cases current with
  | none =>
    -- the symbol opens a bucket
    rw [Option.toList_none, List.append_nil] at hfilled
    refine ⟨_, bucketRound_none thresh closed hi, ⟨closed, _, rfl, hi, ?_, h.isClosed⟩, ?_⟩
    · rw [bucketState, ← hnext]
      exact hfilled.new h.isClosed _
    · simp only [bucketsLeft, bucketState, length_enumerate, Option.toList_none, Option.toList_some,
        List.length_append, List.length_nil, List.length_singleton]
      omega
  | some bucket =>
    by_cases hbucket : Closed volume thresh bucket
    · -- the bucket is closed, and the symbol is looked at once more
      refine ⟨_, bucketRound_of_closed closed hi hbucket, ⟨_, none, rfl, h.i_le, ?_, ?_⟩, ?_⟩
      · rwa [Option.toList_none, List.append_nil]
      · intro b hb
        rcases List.mem_append.1 hb with hb | hb
        · exact h.isClosed b hb
        · rwa [List.mem_singleton.1 hb]
      · simp only [bucketsLeft, bucketState, length_enumerate, Option.toList_none,
          Option.toList_some, List.length_append, List.length_nil, List.length_singleton]
        omega
    · have hlength := length_le_limitPerBucket hfilled
        (List.mem_append_right _ (List.mem_singleton_self bucket))
      refine ⟨_, bucketRound_of_not_closed closed hi hbucket hlength,
        ⟨closed, _, rfl, hi, ?_, h.isClosed⟩, ?_⟩
      · rw [bucketState, ← hnext]
        exact hfilled.push hbucket _
      · simp only [bucketsLeft, bucketState, length_enumerate, Option.toList_some,
          List.length_append, List.length_singleton]
        omega

/-- One round, or the end. -/
theorem BucketInv.exists_round (h : BucketInv volume thresh sortedSymbols st closed current) :
    (∃ st', DataFeed.bucketRound sortedSymbols (sortedSymbols.map volume) thresh st =
        .ok (.inl st') ∧
      (∃ closed' current', BucketInv volume thresh sortedSymbols st' closed' current') ∧
      bucketsLeft sortedSymbols st' < bucketsLeft sortedSymbols st) ∨
    ∃ dist, DataFeed.bucketRound sortedSymbols (sortedSymbols.map volume) thresh st =
        .ok (.inr dist) ∧
      ∃ buckets, dist = enumerate buckets ∧
        Filled (Closed volume thresh) sortedSymbols buckets := by
  by_cases hi : st.i < sortedSymbols.length
  · exact .inl (h.bucketRound hi)
  · refine .inr ⟨st.dist, by rw [DataFeed.bucketRound, if_neg hi], closed ++ current.toList, ?_, ?_⟩
    · rw [h.state]
      rfl
    · have hfilled := h.filled
      rwa [List.take_of_length_le (Nat.le_of_not_lt hi)] at hfilled

/-- The greedy loop ends, with the symbols in buckets that were filled one after the other. -/
theorem equalBuckets_spec (sortedSymbols : List α) (volume : α → ℕ) (thresh : ℚ) :
    ∃ buckets, Returns (equalBuckets sortedSymbols (sortedSymbols.map volume) thresh)
        (.ok (enumerate buckets)) ∧ Filled (Closed volume thresh) sortedSymbols buckets := by
  have hinit : BucketInv volume thresh sortedSymbols {} [] none :=
    ⟨rfl, Nat.zero_le _, Filled.nil _, fun _ h => absurd h List.not_mem_nil⟩
  obtain ⟨dist, hdist, buckets, rfl, hbuckets⟩ := iterate_spec
    (I := fun st => ∃ closed current, BucketInv volume thresh sortedSymbols st closed current)
    (Q := fun dist => ∃ buckets, dist = enumerate buckets ∧
      Filled (Closed volume thresh) sortedSymbols buckets)
    (bucketsLeft sortedSymbols) (fun st ⟨closed, current, h⟩ => h.exists_round) ⟨_, _, hinit⟩
  exact ⟨buckets, hdist, hbuckets⟩

end EqualBuckets

/-! ### Pairs -/

section Pairs

variable {sortedSymbols : List α} {n i : ℕ}

/-- The positions of the pair `i`. -/
def pairPositions (n i : ℕ) : List ℕ := if i < n - i - 1 then [i, n - i - 1] else [i]

/-- The number of pairs. -/
def numPairs (n : ℕ) : ℕ := (n + 1) / 2

/-- The first `k` pairs. -/
def pairBuckets (sortedSymbols : List α) (k : ℕ) : List (List α) :=
  (List.range k).map fun i =>
    (pairPositions sortedSymbols.length i).filterMap fun j => sortedSymbols[j]?

theorem dictSet_pairBuckets (sortedSymbols : List α) (k : ℕ) :
    dictSet (enumerate (pairBuckets sortedSymbols k)) k
        ((pairPositions sortedSymbols.length k).filterMap fun j => sortedSymbols[j]?) =
      enumerate (pairBuckets sortedSymbols (k + 1)) := by
  have hset := dictSet_enumerate_length (pairBuckets sortedSymbols k)
    ((pairPositions sortedSymbols.length k).filterMap fun j => sortedSymbols[j]?)
  rw [pairBuckets, List.length_map, List.length_range] at hset
  rw [pairBuckets, hset, pairBuckets, List.range_succ, List.map_append, List.map_singleton]

/-- The loop goes on up to the middle. -/
theorem pairLoop_range' {k : ℕ} (hk : k ≤ numPairs sortedSymbols.length) :
    pairLoop sortedSymbols (enumerate (pairBuckets sortedSymbols k))
        (List.range' k (sortedSymbols.length - k)) =
      .ok (enumerate (pairBuckets sortedSymbols (numPairs sortedSymbols.length))) := by
  unfold numPairs at hk ⊢
  induction hd : (sortedSymbols.length + 1) / 2 - k generalizing k with
  | zero =>
    obtain rfl : k = (sortedSymbols.length + 1) / 2 := by omega
    cases hm : sortedSymbols.length - (sortedSymbols.length + 1) / 2 with
    | zero => rfl
    | succ m =>
      rw [List.range'_succ, pairLoop, if_neg (by omega), if_neg (by omega)]
      rfl
  | succ d ih =>
    obtain ⟨m, hm⟩ : ∃ m, sortedSymbols.length - k = m + 1 :=
      Nat.exists_eq_add_one_of_ne_zero (by omega)
    have hrest := ih (k := k + 1) (by omega) (by omega)
    have hm' : sortedSymbols.length - (k + 1) = m := by omega
    have hk' : k < sortedSymbols.length := by omega
    rw [hm', ← dictSet_pairBuckets, pairPositions] at hrest
    rw [hm, List.range'_succ, pairLoop]
    split_ifs with hlt heq
    · have hj : sortedSymbols.length - k - 1 < sortedSymbols.length := by omega
      have hpair : [k, sortedSymbols.length - k - 1].filterMap (fun j => sortedSymbols[j]?) =
          [sortedSymbols[k], sortedSymbols[sortedSymbols.length - k - 1]] := by
        simp [List.getElem?_eq_getElem hk', List.getElem?_eq_getElem hj]
      rw [if_pos hlt, hpair] at hrest
      rw [itemAt_of_lt hk', itemAt_of_lt hj]
      exact hrest
    · have hmiddle : [k].filterMap (fun j => sortedSymbols[j]?) = [sortedSymbols[k]] := by
        simp [List.getElem?_eq_getElem hk']
      rw [if_neg hlt, hmiddle] at hrest
      rw [itemAt_of_lt hk']
      exact hrest
    · omega

theorem largestWithSmallest_eq (sortedSymbols : List α) :
    largestWithSmallest sortedSymbols =
      .ok (enumerate (pairBuckets sortedSymbols (numPairs sortedSymbols.length))) := by
  rw [largestWithSmallest, List.range_eq_range']
  exact pairLoop_range' (k := 0) (Nat.zero_le _)

/-- Every position is in one pair. -/
theorem perm_flatMap_pairPositions (n : ℕ) :
    ((List.range (numPairs n)).flatMap (pairPositions n)).Perm (List.range n) := by
  have hmem : ∀ i x, x ∈ pairPositions n i ↔ x = i ∨ i < n - i - 1 ∧ x = n - i - 1 := by
    intro i x
    unfold pairPositions
    split_ifs with hlt <;> simp [hlt]
  refine (List.perm_ext_iff_of_nodup ?_ List.nodup_range).2 fun x => ?_
  · rw [List.nodup_flatMap]
    refine ⟨fun i _ => ?_, ?_⟩
    · unfold pairPositions
      split_ifs with hlt
      · simp [hlt.ne]
      · exact List.nodup_singleton i
    · -- two pairs have no position in common
      refine List.nodup_range.imp_of_mem ?_
      intro i j hi hj hne x hxi hxj
      rw [List.mem_range, numPairs] at hi hj
      rw [hmem] at hxi hxj
      omega
  · simp only [List.mem_flatMap, List.mem_range, hmem, numPairs]
    constructor
    · rintro ⟨i, hi, rfl | ⟨-, rfl⟩⟩ <;> omega
    · intro hx
      by_cases hhalf : x < (n + 1) / 2
      · exact ⟨x, hhalf, .inl rfl⟩
      · exact ⟨n - 1 - x, by omega, .inr (by omega)⟩

theorem filterMap_range_getElem? (l : List β) :
    ((List.range l.length).filterMap fun i => l[i]?) = l := by
  induction l using List.reverseRecOn with
  | nil => rfl
  | append_singleton l x ih =>
    have hl : (List.range l.length).filterMap (fun i => (l ++ [x])[i]?) =
        (List.range l.length).filterMap fun i => l[i]? :=
      List.filterMap_congr fun i hi => List.getElem?_append_left (List.mem_range.1 hi)
    rw [List.length_append, List.length_singleton, List.range_succ, List.filterMap_append, hl, ih]
    simp

theorem perm_flatten_pairBuckets (sortedSymbols : List α) :
    (pairBuckets sortedSymbols (numPairs sortedSymbols.length)).flatten.Perm sortedSymbols := by
  have hperm := (perm_flatMap_pairPositions sortedSymbols.length).filterMap
    fun i => sortedSymbols[i]?
  rwa [filterMap_range_getElem?, List.filterMap_flatMap] at hperm

end Pairs

/-! ### The strategies -/

/-- Buckets with ids from 0 on, none of them empty, that have every symbol once. -/
structure UsesEverySymbol (symbols : List α) (dist : List (ℕ × List α)) : Prop where
  ids : dist.map Prod.fst = List.range dist.length
  ne_nil : ∀ p ∈ dist, p.2 ≠ []
  perm : (dist.map Prod.snd).flatten.Perm symbols

/-- The sorted symbols in buckets of up to 4, each closed as soon as it has 4 symbols or enough
volume. -/
structure GreedyBuckets (volume : α → ℕ) (thresh : ℚ) (sortedSymbols : List α)
    (dist : List (ℕ × List α)) : Prop where
  ids : dist.map Prod.fst = List.range dist.length
  length : ∀ p ∈ dist, 1 ≤ p.2.length ∧ p.2.length ≤ 4
  filled : Filled (Closed volume thresh) sortedSymbols (dist.map Prod.snd)

section Strategies

variable {symbols sortedSymbols : List α} {buckets : List (List α)}

theorem ids_enumerate (l : List β) :
    (enumerate l).map Prod.fst = List.range (enumerate l).length := by
  rw [map_fst_enumerate, length_enumerate]

theorem mem_of_mem_enumerate {l : List β} {p : ℕ × β} (hp : p ∈ enumerate l) : p.2 ∈ l := by
  rw [← map_snd_enumerate l]
  exact List.mem_map_of_mem hp

theorem usesEverySymbol_enumerate (hne : ∀ b ∈ buckets, b ≠ [])
    (hperm : buckets.flatten.Perm symbols) : UsesEverySymbol symbols (enumerate buckets) :=
  ⟨ids_enumerate buckets, fun _ hp => hne _ (mem_of_mem_enumerate hp),
    by rwa [map_snd_enumerate]⟩

theorem greedyBuckets_enumerate {volume : α → ℕ} {thresh : ℚ}
    (h : Filled (Closed volume thresh) sortedSymbols buckets) :
    GreedyBuckets volume thresh sortedSymbols (enumerate buckets) := by
  refine ⟨ids_enumerate buckets, fun p hp => ⟨?_, ?_⟩, by rwa [map_snd_enumerate]⟩
  · exact List.length_pos_iff.2 (h.ne_nil _ (mem_of_mem_enumerate hp))
  · exact length_le_limitPerBucket h (mem_of_mem_enumerate hp)

theorem pairBuckets_ne_nil {k : ℕ} (hk : k ≤ sortedSymbols.length) :
    ∀ b ∈ pairBuckets sortedSymbols k, b ≠ [] := by
  intro b hb
  obtain ⟨i, hi, rfl⟩ := List.mem_map.1 hb
  have hlt : i < sortedSymbols.length := (List.mem_range.1 hi).trans_le hk
  have hmem : i ∈ pairPositions sortedSymbols.length i := by
    unfold pairPositions
    split_ifs <;> exact List.mem_cons_self
  exact List.ne_nil_of_mem
    (List.mem_filterMap.2 ⟨i, hmem, List.getElem?_eq_getElem hlt⟩)

variable (api : SymbolText α) (quoteVolume : String → ℕ) (symbols)

/-- The sort keeps the symbols, and the volumes go down. -/
theorem sortByTradingVol_spec :
    (sortByTradingVol api quoteVolume symbols).Perm symbols ∧
      (sortByTradingVol api quoteVolume symbols).Pairwise fun s t =>
        tradingVolume api quoteVolume t ≤ tradingVolume api quoteVolume s := by
  let r : α → α → Prop := fun s t =>
    tradingVolume api quoteVolume t ≤ tradingVolume api quoteVolume s
  have : Std.Total r := ⟨fun s t => le_total _ _⟩
  have : IsTrans α r := ⟨fun s t u hst htu => le_trans htu hst⟩
  exact ⟨List.perm_insertionSort r symbols, List.pairwise_insertionSort r symbols⟩

theorem usesEverySymbol_oneToOne (h : sortedSymbols.Perm symbols) :
    UsesEverySymbol symbols (oneToOne sortedSymbols) := by
  refine usesEverySymbol_enumerate (fun b hb => ?_) ?_
  · obtain ⟨s, -, rfl⟩ := List.mem_map.1 hb
    exact List.cons_ne_nil s []
  · rwa [← List.flatMap_def, List.flatMap_singleton']

/-- **The strategies without the index use every symbol once**, whatever the threshold. -/
theorem distributeSymbols_sorted (index : ResourceIndex) (mean : List ℕ → ℚ) (exchange : String) :
    (sortByTradingVol api quoteVolume symbols).Perm symbols ∧
    ((sortByTradingVol api quoteVolume symbols).Pairwise fun s t =>
      tradingVolume api quoteVolume t ≤ tradingVolume api quoteVolume s) ∧
    (∃ dist, Returns (distributeSymbols api quoteVolume index mean exchange symbols
        "EQUAL_BUCKETS" false) (.ok dist) ∧
      GreedyBuckets (tradingVolume api quoteVolume)
        (mean ((sortByTradingVol api quoteVolume symbols).map (tradingVolume api quoteVolume)))
        (sortByTradingVol api quoteVolume symbols) dist) ∧
    ∀ strategy ∈ ["LARGEST_WITH_SMALLEST", "ONE_TO_ONE"],
      ∃ dist, Returns (distributeSymbols api quoteVolume index mean exchange symbols
          strategy false) (.ok dist) ∧ UsesEverySymbol symbols dist := by
  obtain ⟨hperm, hdescending⟩ := sortByTradingVol_spec symbols api quoteVolume
  refine ⟨hperm, hdescending, ?_, ?_⟩
  · obtain ⟨buckets, hreturns, hfilled⟩ :=
      equalBuckets_spec (sortByTradingVol api quoteVolume symbols)
        (tradingVolume api quoteVolume)
        (mean ((sortByTradingVol api quoteVolume symbols).map (tradingVolume api quoteVolume)))
    exact ⟨_, hreturns, greedyBuckets_enumerate hfilled⟩
  · intro strategy hstrategy
    rcases List.mem_pair.1 hstrategy with rfl | rfl
    · have hpairs : numPairs (sortByTradingVol api quoteVolume symbols).length ≤
          (sortByTradingVol api quoteVolume symbols).length := by
        unfold numPairs
        omega
      exact ⟨_, ⟨0, fun _ _ => congrArg some (largestWithSmallest_eq _)⟩,
        usesEverySymbol_enumerate (pairBuckets_ne_nil hpairs)
          ((perm_flatten_pairBuckets _).trans hperm)⟩
    · exact ⟨_, ⟨0, fun _ _ => rfl⟩, usesEverySymbol_oneToOne symbols hperm⟩

end Strategies

end DataFeed

end Svoe
