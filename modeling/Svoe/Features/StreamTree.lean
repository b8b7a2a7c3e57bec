import Svoe.Features.Definitions

/-!
# Stream trees

A feature is a definition over another feature, down to a data source (every definition of the
repository has one dependency).  `construct_stream_tree` makes a chain of stream nodes of it: an
element that is emitted into the data source's stream runs through the updates of all definitions,
each of which keeps its own state.  Trade-volume-imbalance nodes share one queue.

`runStreamTree` is `run_named_events_stream` on such a chain.  The updates work on events, not on
`[data, event]` lists: emitting a list raises, at every feature that is not a data source itself
(`Feature.emit_named`).
-/

namespace Svoe

/-! ### Nodes -/

/-- The source of a data stream: a data source definition with its parameters. -/
structure Source where
  dataDefinition : String
  params : List (String × String)
  deriving DecidableEq

/-- What is emitted into a stream: an event, or the list `[data, event]`. -/
inductive Elem where
  | bare (event : DataEvent)
  | named (data : Source) (event : DataEvent)
  deriving DecidableEq

/-- What indexing an element with a column's name reads from: only an event has columns. -/
def Elem.columns : Elem → Except PyError DataEvent
  | .bare event => .ok event
  | .named _ _ => .error .type

/-- A feature definition with its parameters. -/
inductive Definition where
  | l2Snapshot (depth : ℤ) (sampling : Sampling) (depSchema : Option String)
  | midPrice
  | relativeBidAskSpread
  | ohlcv (window : Window)
  | tradeVolumeImb (window : Window) (sampling : Option Window)
  | volatilityStddev (window : Window)
  | diff (window : Window)
  deriving DecidableEq

namespace Definition

/-- The state of a node: what its `accumulate` keeps, and what its `unique` has seen last. -/
def State : Definition → Type
  | l2Snapshot .. => L2State × Option L2Snapshot
  | midPrice | relativeBidAskSpread => Unit
  | ohlcv _ => OhlcvState
  | tradeVolumeImb .. => TviState × Option Tvi
  | volatilityStddev _ | diff _ => List (Event DataEvent)

/-- The state a new stream starts with. -/
def init : (d : Definition) → d.State
  | l2Snapshot .. => ({}, none)
  | midPrice | relativeBidAskSpread => ()
  | ohlcv _ => {}
  | tradeVolumeImb .. => ({}, none)
  | volatilityStddev _ | diff _ => []

/-- `filter_none(…).unique(maxsize=1)`: drop `None`, and what equals the last event passed on. -/
def unique {β : Type} [DecidableEq β] (seen out : Option β) : Option β × Option β :=
  match out with
  | none => (seen, none)
  | some b => if seen = some b then (seen, none) else (some b, some b)

/-- `L2SnapshotFD._update_state`, by the `dep_schema`. -/
def updateL2Snapshot (depth : ℤ) (sampling : Sampling) (depSchema : Option String)
    (state : L2State) (elem : Elem) : Except PyError (L2State × Option L2Snapshot) :=
  if depSchema = none ∨ depSchema = some "cryptotick" then
    match elem.columns with
    | .error e => .error e
    | .ok (.cryptotickBook event) => .ok (updateStateCryptotick depth sampling state event)
    | .ok _ => .error (.key "update_type")
  else if depSchema = some "cryptofeed" then
    match elem.columns with
    | .error e => .error e
    | .ok (.cryptofeedBook event) => .ok (updateStateCryptofeed depth sampling state event)
    | .ok _ => .error (.key "delta")
  else .error (.value ("Unsupported dep_schema: " ++ depSchema.getD "None"))

/-- The function a price feature maps over snapshots. -/
def mapSnapshot (f : L2Snapshot → Except PyError ValueEvent) (elem : Elem) :
    Except PyError ValueEvent :=
  match elem.columns with
  | .error e => .error e
  | .ok (.l2Snapshot snap) => f snap
  | .ok _ => .error (.key "bids")

/-- The event a node emits for an element of its upstream, and its next state; `queue` is the one
that all trade-volume-imbalance nodes share. -/
def update (stddev : List ℚ → ℚ) (queue : List TradeEvent) :
    (d : Definition) → d.State → Elem →
      Except PyError (List TradeEvent × d.State × Option DataEvent)
  | l2Snapshot depth sampling depSchema, (state, seen), elem =>
    (updateL2Snapshot depth sampling depSchema state elem).map fun (state, out) =>
      (queue, (state, (unique seen out).1), (unique seen out).2.map .l2Snapshot)
  | midPrice, _, elem =>
    (mapSnapshot Svoe.midPrice elem).map fun e => (queue, (), some (.midPrice e))
  | relativeBidAskSpread, _, elem =>
    (mapSnapshot Svoe.relativeBidAskSpread elem).map fun e => (queue, (), some (.spread e))
  | ohlcv window, state, elem =>
    match elem.columns with
    | .error e => .error e
    | .ok event =>
      (updateOhlcv window state event).map fun (state, out) => (queue, state, out.map .ohlcv)
  | tradeVolumeImb window sampling, (state, seen), elem =>
    match elem.columns with
    | .error e => .error e
    | .ok (.trade event) =>
      (updateTvi sampling (convertStrToSeconds window) queue state event).map
        fun (queue, state, out) =>
          (queue, (state, (unique seen out).1), (unique seen out).2.map .tvi)
    | .ok _ => .error (.key "side")
  | volatilityStddev window, deque, elem =>
    match elem.columns with
    | .error e => .error e
    | .ok event => (lookbackStep window (pricesToVolatility stddev) deque event).map
        fun (deque, e) => (queue, deque, some (.volatility e))
  | diff window, deque, elem =>
    match elem.columns with
    | .error e => .error e
    | .ok event => (lookbackStep window diffPercent deque event).map
        fun (deque, e) => (queue, deque, some (.diff e))

/-- **No definition can read a `[data, event]` list.** -/
theorem update_named (stddev : List ℚ → ℚ) (queue : List TradeEvent) (d : Definition)
    (state : d.State) (data : Source) (event : DataEvent) :
    ∃ err, d.update stddev queue state (.named data event) = .error err := by
  cases d with
  | l2Snapshot depth sampling depSchema =>
    obtain ⟨state, seen⟩ := state
    have hraise : ∃ err, updateL2Snapshot depth sampling depSchema state (.named data event) =
        .error err := by
      unfold updateL2Snapshot
      split_ifs <;> exact ⟨_, rfl⟩
    obtain ⟨err, herr⟩ := hraise
    exact ⟨err, by rw [update, herr]; rfl⟩
  | _ => exact ⟨.type, rfl⟩

end Definition

/-! ### Chains -/

/-- A feature: a data source, or a definition over the feature it depends on. -/
inductive Feature where
  | source (data : Source)
  | derived (definition : Definition) (dep : Feature)
  deriving DecidableEq

namespace Feature

/-- `get_data_sources`. -/
def dataSource : Feature → Source
  | source data => data
  | derived _ dep => dep.dataSource

/-- The states of a feature's nodes. -/
def State : Feature → Type
  | source _ => Unit
  | derived d dep => d.State × dep.State

/-- `construct_stream_tree`: all nodes in their initial states. -/
def constructStreamTree : (f : Feature) → f.State
  | source _ => ()
  | derived d dep => (d.init, dep.constructStreamTree)

/-- Emitting an element into the data stream of a feature: what comes out of its out stream. -/
def emit (stddev : List ℚ → ℚ) :
    (f : Feature) → List TradeEvent → f.State → Elem →
      Except PyError (List TradeEvent × f.State × Option Elem)
  | source _, queue, state, elem => .ok (queue, state, some elem)
  | derived d dep, queue, (state, depState), elem =>
    match dep.emit stddev queue depState elem with
    | .error e => .error e
    | .ok (queue, depState, none) => .ok (queue, (state, depState), none)
    | .ok (queue, depState, some elem) =>
      (d.update stddev queue state elem).map fun (queue, state, out) =>
        (queue, (state, depState), out.map .bare)

/-- `run_named_events_stream` without an interval, from a state of the stream tree. -/
def runStreamTree (stddev : List ℚ → ℚ) (f : Feature) :
    List TradeEvent → f.State → List (Source × DataEvent) → Except PyError (List Elem)
  | _, _, [] => .ok []
  | queue, state, (data, event) :: namedEvents =>
    -- `sources` has the feature's data source as its only key
    if data ≠ f.dataSource then .error (.key data.dataDefinition)
    else match f.emit stddev queue state (.bare event) with
      | .error e => .error e
      | .ok (queue, state, out) =>
        (f.runStreamTree stddev queue state namedEvents).map fun res => out.toList ++ res

/-- The offline outputs of a feature, in a process of its own. -/
def runNamedEvents (stddev : List ℚ → ℚ) (f : Feature) (namedEvents : List (Source × DataEvent)) :
    Except PyError (List Elem) :=
  f.runStreamTree stddev [] f.constructStreamTree namedEvents

/-- **Emitting a `[data, event]` list raises**, at every feature that a definition makes. -/
theorem emit_named (stddev : List ℚ → ℚ) (queue : List TradeEvent) (d : Definition)
    (dep : Feature) (state : (derived d dep).State) (data : Source) (event : DataEvent) :
    ∃ err, (derived d dep).emit stddev queue state (.named data event) = .error err := by
  induction dep generalizing d with
  | source s =>
    obtain ⟨state, depState⟩ := state
    obtain ⟨err, herr⟩ := d.update_named stddev queue state data event
    exact ⟨err, by simp only [emit, herr, Except.map]⟩
  | derived d' dep ih =>
    obtain ⟨state, depState⟩ := state
    obtain ⟨err, herr⟩ := ih d' depState
    exact ⟨err, by rw [emit, herr]⟩

end Feature

end Svoe
