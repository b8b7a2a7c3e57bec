import Svoe.Blocks.Blockwise
import Svoe.L2Book.Snapshot

/-!
# The feature definitions

The update functions of the repository's feature definitions, and the events they consume and
produce.  `DataEvent` is an event of any data source or feature: a dictionary with the columns of
its definition.  An update that reads a column the event does not have raises a `KeyError`.

What flows through a stream is an `Elem`: such a dictionary, or the list `[data, event]` that the
live generator emits.  A list has no columns, so every update raises a `TypeError` on it
(`Definition.update_named`).
-/

namespace Svoe

/-! ### Events -/

/-- `side` of a trade. -/
inductive TradeSide where
  | buy
  | sell
  deriving DecidableEq, Repr

/-- An event of `TradesData`.  `trade_id` and `trades` are columns that only `OHLCVFD` reads and
that its schema does not have; of `trades` only the length is used. -/
structure TradeEvent where
  timestamp : ℚ
  receiptTimestamp : ℚ
  side : TradeSide
  amount : ℚ
  price : ℚ
  tradeId : Option String
  trades : Option ℕ
  deriving DecidableEq

/-- An event with one value: of `MidPriceFD`, `RelativeBidAskSpreadFD`, `VolatilityStddevFD` or
`Diff`, or of the synthetic mid price. -/
structure ValueEvent where
  timestamp : ℚ
  receiptTimestamp : ℚ
  value : ℚ
  deriving DecidableEq

/-- An event of `OHLCVFD`. -/
structure Ohlcv where
  timestamp : ℚ
  receiptTimestamp : ℚ
  openPrice : ℚ
  high : ℚ
  low : ℚ
  close : ℚ
  volume : ℚ
  vwap : ℚ
  numTrades : ℕ
  deriving DecidableEq

/-- An event of `TradeVolumeImbFD`. -/
structure Tvi where
  timestamp : ℚ
  receiptTimestamp : ℚ
  tvi : ℚ
  dtTs : ℚ
  deriving DecidableEq

/-- An event of a data source or a feature. -/
inductive DataEvent where
  | cryptotickBook (e : CryptotickEvent)
  | cryptofeedBook (e : CryptofeedEvent)
  | trade (e : TradeEvent)
  | l2Snapshot (e : L2Snapshot)
  | midPrice (e : ValueEvent)
  | spread (e : ValueEvent)
  | volatility (e : ValueEvent)
  | diff (e : ValueEvent)
  | ohlcv (e : Ohlcv)
  | tvi (e : Tvi)
  deriving DecidableEq

namespace DataEvent

/-- `event['timestamp']`. -/
def timestamp : DataEvent → ℚ
  | cryptotickBook e => e.timestamp
  | cryptofeedBook e => e.timestamp
  | trade e => e.timestamp
  | l2Snapshot e => e.timestamp
  | midPrice e | spread e | volatility e | diff e => e.timestamp
  | ohlcv e => e.timestamp
  | tvi e => e.timestamp

/-- `event['receipt_timestamp']`. -/
def receiptTimestamp : DataEvent → ℚ
  | cryptotickBook e => e.receiptTimestamp
  | cryptofeedBook e => e.receiptTimestamp
  | trade e => e.receiptTimestamp
  | l2Snapshot e => e.receiptTimestamp
  | midPrice e | spread e | volatility e | diff e => e.receiptTimestamp
  | ohlcv e => e.receiptTimestamp
  | tvi e => e.receiptTimestamp

/-- The only column besides the two timestamps, if there is only one. -/
def onlyValue : DataEvent → Option (String × ℚ)
  | midPrice e => some ("mid_price", e.value)
  | spread e => some ("spread", e.value)
  | volatility e => some ("volatility", e.value)
  | diff e => some ("val", e.value)
  | _ => none

/-- `event[key]`, for a key of such a column. -/
def value (key : String) (e : DataEvent) : Except PyError ℚ :=
  match e.onlyValue with
  | some (k, v) => if k = key then .ok v else .error (.key key)
  | none => .error (.key key)

end DataEvent

/-! ### Prices -/

/-- The best bid and the best ask of a snapshot, `snap['bids'][0][0]` and `snap['asks'][0][0]`. -/
def bestPrices (snap : L2Snapshot) : Except PyError (ℚ × ℚ) :=
  match snap.bids.head?, snap.asks.head? with
  | some bid, some ask => .ok (bid.1, ask.1)
  | _, _ => .error .index

/-- The function `MidPriceFD` maps over snapshots. -/
def midPrice (snap : L2Snapshot) : Except PyError ValueEvent :=
  (bestPrices snap).map fun p => ⟨snap.timestamp, snap.receiptTimestamp, (p.1 + p.2) / 2⟩

/-- The function `RelativeBidAskSpreadFD` maps over snapshots. -/
def relativeBidAskSpread (snap : L2Snapshot) : Except PyError ValueEvent :=
  match bestPrices snap with
  | .error e => .error e
  | .ok p =>
    if p.1 + p.2 = 0 then .error .zeroDivision
    else .ok ⟨snap.timestamp, snap.receiptTimestamp, 2 * |p.1 - p.2| / (p.1 + p.2)⟩

/-! ### Windows of values -/

/-- `VolatilityStddevFD._prices_to_volatility`; `stddev` is `np.std` in single precision. -/
def pricesToVolatility (stddev : List ℚ → ℚ) (prices : List DataEvent) :
    Except PyError ValueEvent :=
  match prices.getLast? with
  | none => .error .index
  | some lastPrice => (prices.mapM (DataEvent.value "mid_price")).map fun p =>
      ⟨lastPrice.timestamp, lastPrice.receiptTimestamp, stddev p⟩

/-- `Diff._diff_percent`. -/
def diffPercent (elems : List DataEvent) : Except PyError ValueEvent :=
  match elems.head?, elems.getLast? with
  | some firstElem, some lastElem =>
    match lastElem.onlyValue with
    | none => .error (.value
        "Dependent feature element schema contain multiple values, should be 1")
    | some (key, lastValue) =>
      match firstElem.value key with
      | .error e => .error e
      | .ok firstValue =>
        if firstValue = 0 then .error .zeroDivision
        else .ok ⟨lastElem.timestamp, lastElem.receiptTimestamp,
          (lastValue - firstValue) / firstValue⟩
  | _, _ => .error .index

/-- One event through `lookback_apply`, for a function that may raise. -/
def lookbackStep (window : Window) (apply : List DataEvent → Except PyError ValueEvent)
    (deque : List (Event DataEvent)) (event : DataEvent) :
    Except PyError (List (Event DataEvent) × ValueEvent) :=
  let (deque, out) := dequeAndApply window
    (fun events => (⟨event.timestamp, apply (events.map Event.data)⟩ :
      Event (Except PyError ValueEvent))) deque ⟨event.timestamp, event⟩
  out.data.map fun v => (deque, v)

/-! ### Trades -/

/-- `_State` of `OHLCVFD`. -/
structure OhlcvState where
  lastTs : Option ℚ := none
  ohlcv : Option Ohlcv := none
  startTs : Option ℚ := none
  deriving DecidableEq

/-- The start of the first full window, set by the first event. -/
def OhlcvState.start (state : OhlcvState) (timestamp : ℚ) (window : Window) :
    Except PyError ℚ :=
  match state.startTs with
  | some startTs => .ok startTs
  | none => getSamplingBucketTs timestamp window false

/-- The candle after an event. -/
def Ohlcv.add (ohlcv : Ohlcv) (event : TradeEvent) (numTrades : ℕ) : Ohlcv :=
  { ohlcv with
    close := event.price
    volume := ohlcv.volume + event.amount
    high := if event.price > ohlcv.high then event.price else ohlcv.high
    low := if event.price < ohlcv.low then event.price else ohlcv.low
    vwap := ohlcv.vwap + event.price * event.amount
    numTrades := ohlcv.numTrades + numTrades }

/-- `OHLCVFD._update_state`. -/
def updateOhlcv (window : Window) (state : OhlcvState) (event : DataEvent) :
    Except PyError (OhlcvState × Option Ohlcv) :=
  match state.start event.timestamp window with
  | .error e => .error e
  | .ok startTs =>
    let state := { state with startTs := some startTs }
    if event.timestamp < startTs then .ok (state, none)
    else match event with
      | .trade ⟨timestamp, receiptTimestamp, side, amount, price, some tradeId, some trades⟩ =>
        let ohlcv := state.ohlcv.getD
          ⟨timestamp, receiptTimestamp, price, price, price, price, 0, 0, 0⟩
        let lastTs := state.lastTs.getD timestamp
        let ohlcv := ohlcv.add
          ⟨timestamp, receiptTimestamp, side, amount, price, some tradeId, some trades⟩ trades
        if timestamp - lastTs > convertStrToSeconds window then
          if ohlcv.volume = 0 then .error .zeroDivision
          else .ok ({ state with lastTs := some timestamp, ohlcv := none },
            some { ohlcv with vwap := ohlcv.vwap / ohlcv.volume })
        else .ok ({ state with lastTs := some lastTs, ohlcv := some ohlcv }, none)
      | .trade ⟨_, _, _, _, _, some _, none⟩ => .error (.key "trades")
      | .trade ⟨_, _, _, _, _, none, _⟩ => .error (.key "trade_id")
      | _ => .error (.key "side")

/-- The attributes of `TradeVolumeImbFD`'s `_State` that an instance has for itself.  `queue` is
only ever changed in place, so all instances share the queue of the class. -/
structure TviState where
  lastSamplingBucketTs : ℚ := -1
  sellVol : ℚ := 0
  buyVol : ℚ := 0
  deriving DecidableEq

/-- Add a volume to the side of a trade. -/
def TviState.addVol (state : TviState) (side : TradeSide) (vol : ℚ) : TviState :=
  match side with
  | .buy => { state with buyVol := state.buyVol + vol }
  | .sell => { state with sellVol := state.sellVol + vol }

/-- `TradeVolumeImbFD._update_state`; without a `sampling` window it is `'raw'`. -/
def updateTvi (sampling : Option Window) (windowS : ℚ) (queue : List TradeEvent)
    (state : TviState) (event : TradeEvent) :
    Except PyError (List TradeEvent × TviState × Option Tvi) :=
  let old := fun e : TradeEvent => windowS < event.timestamp - e.timestamp
  let popped := (queue ++ [event]).takeWhile old
  let queue := (queue ++ [event]).dropWhile old
  let state := popped.foldl (fun state e => state.addVol e.side (-(e.price * e.amount))) state
  let state := state.addVol event.side (event.price * event.amount)
  if state.buyVol + state.sellVol = 0 then .error .zeroDivision
  else
    let tvi := 2 * (state.buyVol - state.sellVol) / (state.buyVol + state.sellVol)
    match sampling with
    | none => .ok (queue, state,
        some ⟨event.timestamp, event.receiptTimestamp, tvi, state.lastSamplingBucketTs⟩)
    | some bucket =>
      match getSamplingBucketTs event.timestamp bucket true with
      | .error e => .error e
      | .ok samplingBucketTs =>
        if state.lastSamplingBucketTs ≠ samplingBucketTs then
          .ok (queue, { state with lastSamplingBucketTs := samplingBucketTs },
            some ⟨event.timestamp, event.receiptTimestamp, tvi, samplingBucketTs⟩)
        else .ok (queue, state, none)

end Svoe
