import Mathlib.Algebra.BigOperators.Ring.List
import Mathlib.Algebra.Order.BigOperators.Group.List
import Mathlib.Data.List.Forall2
import Svoe.Common.Buckets
import Svoe.Features.Definitions

/-!
# Candles

`OHLCVFD` skips the trades before the first window boundary, collects the others in a candle and
closes it with the first trade that comes more than a window after the trade that closed the candle
before.

* `OhlcvState.Collects.run` : the trades of a run are cut into groups, one for each candle and one
  that is still pending.
* `runTrades_candles` : every candle is the one of its group.
* `startIndependent_iff` : the candles do not depend on where the stream starts, and keep to their
  buckets, if and only if there are none.
-/

namespace Svoe

/-! ### Trades -/

/-- A trade with all the columns that `_update_state` reads. -/
structure CandleTrade where
  timestamp : ℚ
  receiptTimestamp : ℚ
  side : TradeSide
  amount : ℚ
  price : ℚ
  tradeId : String
  trades : ℕ
  amount_pos : 0 < amount
  price_pos : 0 < price

namespace CandleTrade

/-- The event of a trade. -/
def event (t : CandleTrade) : TradeEvent where
  timestamp := t.timestamp
  receiptTimestamp := t.receiptTimestamp
  side := t.side
  amount := t.amount
  price := t.price
  tradeId := some t.tradeId
  trades := some t.trades

/-- `price * amount`. -/
def notional (t : CandleTrade) : ℚ := t.price * t.amount

end CandleTrade

/-- The stream of `OHLCVFD` from a state: `accumulate`, then `filter_none`. -/
def runOhlcv (window : Window) (state : OhlcvState) :
    List DataEvent → Except PyError (OhlcvState × List Ohlcv)
  | [] => .ok (state, [])
  | event :: events =>
    match updateOhlcv window state event with
    | .error e => .error e
    | .ok (state, out) =>
      (runOhlcv window state events).map fun (state, candles) => (state, out.toList ++ candles)

/-- The run over trades, from the initial state. -/
def runTrades (window : Window) (trades : List CandleTrade) :
    Except PyError (OhlcvState × List Ohlcv) :=
  runOhlcv window {} (trades.map fun t => .trade t.event)

/-! ### The candle of a group -/

/-- What a candle says of the trades it was made of, except for the average price. -/
structure Ohlcv.Aggregates (c : Ohlcv) (group : List CandleTrade) : Prop where
  timestamp : group.head?.map CandleTrade.timestamp = some c.timestamp
  openPrice : group.head?.map CandleTrade.price = some c.openPrice
  close : group.getLast?.map CandleTrade.price = some c.close
  high : IsGreatest {p | ∃ t ∈ group, t.price = p} c.high
  low : IsLeast {p | ∃ t ∈ group, t.price = p} c.low
  volume : c.volume = (group.map CandleTrade.amount).sum
  numTrades : c.numTrades = (group.map CandleTrade.trades).sum

/-- A candle in the making: `vwap` is a sum. -/
structure Ohlcv.Collects (c : Ohlcv) (group : List CandleTrade) : Prop
    extends c.Aggregates group where
  notional : c.vwap = (group.map CandleTrade.notional).sum

/-- An emitted candle: `vwap` is the average price. -/
structure Ohlcv.CandleOf (c : Ohlcv) (group : List CandleTrade) : Prop
    extends c.Aggregates group where
  vwap : c.vwap = (group.map CandleTrade.notional).sum / c.volume
  low_le_vwap : c.low ≤ c.vwap
  vwap_le_high : c.vwap ≤ c.high

/-- The state after the trades of a group that is not closed yet. -/
def OhlcvState.Collects (state : OhlcvState) (group : List CandleTrade) : Prop :=
  match state.ohlcv with
  | none => group = []
  | some c => c.Collects group

/-- The candle with its average price. -/
def Ohlcv.finish (c : Ohlcv) : Ohlcv := { c with vwap := c.vwap / c.volume }

namespace Ohlcv

variable {c : Ohlcv} {group : List CandleTrade} {t : CandleTrade}

theorem Aggregates.ne_nil (h : c.Aggregates group) : group ≠ [] := by
  intro hnil
  have htimestamp := h.timestamp
  rw [hnil] at htimestamp
  cases htimestamp

theorem Aggregates.volume_pos (h : c.Aggregates group) : 0 < c.volume := by
  have hpos : ∀ a ∈ group.map CandleTrade.amount, 0 < a := by
    intro a ha
    obtain ⟨t, -, rfl⟩ := List.mem_map.1 ha
    exact t.amount_pos
  rw [h.volume]
  exact List.sum_pos _ hpos (by simpa using h.ne_nil)

/-- The candle that a first trade opens. -/
theorem collects_singleton (t : CandleTrade) :
    ((⟨t.timestamp, t.receiptTimestamp, t.price, t.price, t.price, t.price, 0, 0, 0⟩ : Ohlcv).add
      t.event t.trades).Collects [t] := by
  constructor
  · constructor
    · rfl
    · rfl
    · rfl
    · simp [add, CandleTrade.event, IsGreatest, upperBounds]
    · simp [add, CandleTrade.event, IsLeast, lowerBounds]
    · simp [add, CandleTrade.event]
    · simp [add, CandleTrade.event]
  · simp [add, CandleTrade.event, CandleTrade.notional]

/-- One more trade. -/
theorem Collects.add (h : c.Collects group) (t : CandleTrade) :
    (c.add t.event t.trades).Collects (group ++ [t]) := by
  have hhead : (group ++ [t]).head? = group.head? := List.head?_append_of_ne_nil _ h.ne_nil
  refine ⟨⟨?_, ?_, ?_, ?_, ?_, ?_, ?_⟩, ?_⟩
  · rw [hhead]
    exact h.timestamp
  · rw [hhead]
    exact h.openPrice
  · simp [Ohlcv.add, CandleTrade.event]
  · obtain ⟨⟨s, hs, hhigh⟩, hub⟩ := h.high
    show IsGreatest _ (if t.price > c.high then t.price else c.high)
    split_ifs with hgt
    · refine ⟨⟨t, by simp, rfl⟩, ?_⟩
      rintro p ⟨u, hu, rfl⟩
      rcases List.mem_append.1 hu with hu | hu
      · exact (hub ⟨u, hu, rfl⟩).trans hgt.le
      · rw [List.mem_singleton.1 hu]
    · refine ⟨⟨s, by simp [hs], hhigh⟩, ?_⟩
      rintro p ⟨u, hu, rfl⟩
      rcases List.mem_append.1 hu with hu | hu
      · exact hub ⟨u, hu, rfl⟩
      · rw [List.mem_singleton.1 hu]
        exact not_lt.1 hgt
  · obtain ⟨⟨s, hs, hlow⟩, hlb⟩ := h.low
    show IsLeast _ (if t.price < c.low then t.price else c.low)
    split_ifs with hlt
    · refine ⟨⟨t, by simp, rfl⟩, ?_⟩
      rintro p ⟨u, hu, rfl⟩
      rcases List.mem_append.1 hu with hu | hu
      · exact hlt.le.trans (hlb ⟨u, hu, rfl⟩)
      · rw [List.mem_singleton.1 hu]
    · refine ⟨⟨s, by simp [hs], hlow⟩, ?_⟩
      rintro p ⟨u, hu, rfl⟩
      rcases List.mem_append.1 hu with hu | hu
      · exact hlb ⟨u, hu, rfl⟩
      · rw [List.mem_singleton.1 hu]
        exact not_lt.1 hlt
  · show c.volume + t.amount = _
    rw [h.volume]
    simp
  · show c.numTrades + t.trades = _
    rw [h.numTrades]
    simp
  · show c.vwap + t.price * t.amount = _
    rw [h.notional]
    simp [CandleTrade.notional]

/-- **Closing a candle**: the average price lies between the lowest and the highest. -/
theorem Collects.finish (h : c.Collects group) : c.finish.CandleOf group := by
  have hpos := h.volume_pos
  have hlow : c.low * c.volume ≤ (group.map CandleTrade.notional).sum := by
    rw [h.volume, ← List.sum_map_mul_left]
    refine List.sum_le_sum ?_
    intro t ht
    exact mul_le_mul_of_nonneg_right (h.low.2 ⟨t, ht, rfl⟩) t.amount_pos.le
  have hhigh : (group.map CandleTrade.notional).sum ≤ c.high * c.volume := by
    rw [h.volume, ← List.sum_map_mul_left]
    refine List.sum_le_sum ?_
    intro t ht
    exact mul_le_mul_of_nonneg_right (h.high.2 ⟨t, ht, rfl⟩) t.amount_pos.le
  constructor
  · exact ⟨h.timestamp, h.openPrice, h.close, h.high, h.low, h.volume, h.numTrades⟩
  · show c.vwap / c.volume = _
    rw [h.notional]
    rfl
  · show c.low ≤ c.vwap / c.volume
    rw [le_div_iff₀ hpos, h.notional]
    exact hlow
  · show c.vwap / c.volume ≤ c.high
    rw [div_le_iff₀ hpos, h.notional]
    exact hhigh

end Ohlcv

/-! ### One trade -/

variable {window : Window} {state : OhlcvState} {group : List CandleTrade} {t : CandleTrade}
  {startTs : ℚ}

/-- A trade before the first window boundary. -/
theorem updateOhlcv_of_lt (hstart : state.startTs = some startTs) (hlt : t.timestamp < startTs) :
    updateOhlcv window state (.trade t.event) = .ok (state, none) := by
  obtain ⟨lastTs, ohlcv, start⟩ := state
  obtain rfl : start = some startTs := hstart
  unfold updateOhlcv OhlcvState.start
  exact if_pos hlt

variable (window) in
/-- **A trade behind the boundary** joins the group, and closes it if it comes more than a window
after the trade that closed the group before. -/
theorem updateOhlcv_of_le (hstart : state.startTs = some startTs) (hle : startTs ≤ t.timestamp)
    (hgroup : state.Collects group) :
    ∃ c : Ohlcv, c.Collects (group ++ [t]) ∧ updateOhlcv window state (.trade t.event) =
      .ok (if convertStrToSeconds window < t.timestamp - state.lastTs.getD t.timestamp then
        (⟨some t.timestamp, none, some startTs⟩, some c.finish)
      else (⟨some (state.lastTs.getD t.timestamp), some c, some startTs⟩, none)) := by
  obtain ⟨lastTs, ohlcv, start⟩ := state
  obtain rfl : start = some startTs := hstart
  refine ⟨(ohlcv.getD ⟨t.timestamp, t.receiptTimestamp, t.price, t.price, t.price, t.price,
    0, 0, 0⟩).add t.event t.trades, ?_, ?_⟩
  · cases ohlcv with
    | none =>
      obtain rfl : group = [] := hgroup
      exact Ohlcv.collects_singleton t
    | some c =>
      have hc : c.Collects group := hgroup
      exact hc.add t
  · have hcollects : ((ohlcv.getD ⟨t.timestamp, t.receiptTimestamp, t.price, t.price, t.price,
        t.price, 0, 0, 0⟩).add t.event t.trades).volume ≠ 0 := by
      cases ohlcv with
      | none => exact (Ohlcv.collects_singleton t).volume_pos.ne'
      | some c =>
        have hc : c.Collects group := hgroup
        exact (hc.add t).volume_pos.ne'
    have hskip : ¬ (DataEvent.trade t.event).timestamp < startTs := not_lt.2 hle
    unfold updateOhlcv OhlcvState.start
    dsimp only
    rw [if_neg hskip]
    dsimp only [CandleTrade.event]
    split_ifs with hgap hzero
    · exact absurd hzero hcollects
    · rfl
    · rfl

/-! ### Groups -/

/-- The groups of the trades behind the boundary, and the one that is still pending; `group` has
been collected since the trade at `lastTs`. -/
def splitCandles (windowS : ℚ) : Option ℚ → List CandleTrade → List CandleTrade →
    List (List CandleTrade) × List CandleTrade
  | _, group, [] => ([], group)
  | lastTs, group, t :: trades =>
    if windowS < t.timestamp - lastTs.getD t.timestamp then
      ((group ++ [t]) :: (splitCandles windowS (some t.timestamp) [] trades).1,
        (splitCandles windowS (some t.timestamp) [] trades).2)
    else splitCandles windowS (some (lastTs.getD t.timestamp)) (group ++ [t]) trades

/-- Every trade is in one group. -/
theorem flatten_splitCandles (windowS : ℚ) (lastTs : Option ℚ) (group trades : List CandleTrade) :
    (splitCandles windowS lastTs group trades).1.flatten ++
      (splitCandles windowS lastTs group trades).2 = group ++ trades := by
  induction trades generalizing lastTs group with
  | nil => simp [splitCandles]
  | cons t trades ih =>
    rw [splitCandles]
    split_ifs
    · rw [List.flatten_cons, List.append_assoc, ih]
      simp
    · rw [ih]
      simp

/-- **A run** emits the candles of the groups, and keeps the candle of the pending one. -/
theorem OhlcvState.Collects.run (hgroup : state.Collects group)
    (hstart : state.startTs = some startTs) (window : Window) (trades : List CandleTrade) :
    ∃ state' candles,
      runOhlcv window state (trades.map fun t => .trade t.event) = .ok (state', candles) ∧
      state'.startTs = some startTs ∧
      List.Forall₂ Ohlcv.CandleOf candles (splitCandles (convertStrToSeconds window) state.lastTs
        group (trades.filter fun t => startTs ≤ t.timestamp)).1 ∧
      state'.Collects (splitCandles (convertStrToSeconds window) state.lastTs
        group (trades.filter fun t => startTs ≤ t.timestamp)).2 := by
  induction trades generalizing state group with
  | nil => exact ⟨state, [], rfl, hstart, .nil, hgroup⟩
  | cons t trades ih =>
    by_cases hle : startTs ≤ t.timestamp
    · rw [List.filter_cons_of_pos (by simpa using hle), splitCandles]
      obtain ⟨c, hc, hupdate⟩ := updateOhlcv_of_le window hstart hle hgroup
      split_ifs at hupdate ⊢ with hgap
      · -- the trade closes the group
        have hnext : OhlcvState.Collects ⟨some t.timestamp, none, some startTs⟩ [] := rfl
        obtain ⟨state', candles, hrun, hstart', hcandles, hpending⟩ := ih hnext rfl
        refine ⟨state', c.finish :: candles, ?_, hstart', .cons hc.finish hcandles, hpending⟩
        rw [List.map_cons, runOhlcv, hupdate]
        dsimp only
        rw [hrun]
        rfl
      · have hnext : OhlcvState.Collects
            ⟨some (state.lastTs.getD t.timestamp), some c, some startTs⟩ (group ++ [t]) := hc
        obtain ⟨state', candles, hrun, hstart', hcandles, hpending⟩ := ih hnext rfl
        refine ⟨state', candles, ?_, hstart', hcandles, hpending⟩
        rw [List.map_cons, runOhlcv, hupdate]
        dsimp only
        rw [hrun]
        rfl
    · rw [List.filter_cons_of_neg (by simpa using hle)]
      obtain ⟨state', candles, hrun, hrest⟩ := ih hgroup hstart
      refine ⟨state', candles, ?_, hrest⟩
      rw [List.map_cons, runOhlcv, updateOhlcv_of_lt hstart (not_le.1 hle)]
      dsimp only
      rw [hrun]
      rfl

/-! ### Runs from the initial state -/

/-- The first event sets the boundary. -/
theorem runOhlcv_first {event : DataEvent} {events : List DataEvent}
    (h : getSamplingBucketTs event.timestamp window false = .ok startTs) :
    runOhlcv window {} (event :: events) =
      runOhlcv window { startTs := some startTs } (event :: events) := by
  have hupdate : updateOhlcv window {} event =
      updateOhlcv window { startTs := some startTs } event := by
    unfold updateOhlcv OhlcvState.start
    dsimp only
    rw [h]
  rw [runOhlcv, runOhlcv, hupdate]

/-- The groups of a run: the trades at or behind the boundary. -/
def candleGroups (window : Window) (startTs : ℚ) (trades : List CandleTrade) :
    List (List CandleTrade) × List CandleTrade :=
  splitCandles (convertStrToSeconds window) none [] (trades.filter fun t => startTs ≤ t.timestamp)

theorem runTrades_cons {first : CandleTrade} (rest : List CandleTrade)
    (h : getSamplingBucketTs first.timestamp window false = .ok startTs) :
    ∃ state candles, runTrades window (first :: rest) = .ok (state, candles) ∧
      state.startTs = some startTs ∧
      List.Forall₂ Ohlcv.CandleOf candles (candleGroups window startTs (first :: rest)).1 ∧
      state.Collects (candleGroups window startTs (first :: rest)).2 := by
  have hinit : OhlcvState.Collects { startTs := some startTs } [] := rfl
  have hevent : getSamplingBucketTs (DataEvent.trade first.event).timestamp window false =
      .ok startTs := h
  rw [runTrades, List.map_cons, runOhlcv_first hevent]
  exact hinit.run rfl window (first :: rest)

/-- **Candles are correct**: unless the window is not accepted, the trades from the boundary on are
cut into the groups of the emitted candles and of the pending one. -/
theorem runTrades_candles (window : Window) (trades : List CandleTrade) :
    (¬ window.Accepted ∧
      runTrades window trades = .error (.value "window_s must be between 1ms and 24h")) ∨
    ∃ state candles groups pending, runTrades window trades = .ok (state, candles) ∧
      (∀ first ∈ trades.head?, ∃ startTs, state.startTs = some startTs ∧
        getSamplingBucketTs first.timestamp window false = .ok startTs) ∧
      (trades.filter fun t => state.startTs.any (· ≤ t.timestamp)) = groups.flatten ++ pending ∧
      List.Forall₂ Ohlcv.CandleOf candles groups ∧ state.Collects pending := by
  cases trades with
  | nil => exact .inr ⟨{}, [], [], [], rfl, by simp, rfl, .nil, rfl⟩
  | cons first rest =>
    by_cases hacc : window.Accepted
    · have hstart := getSamplingBucketTs_stop hacc first.timestamp
      obtain ⟨state, candles, hrun, hstate, hcandles, hpending⟩ : ∃ state candles,
          runTrades window (first :: rest) = .ok (state, candles) ∧ _ := runTrades_cons rest hstart
      refine .inr ⟨state, candles, _, _, hrun, ?_, ?_, hcandles, hpending⟩
      · intro first' hfirst
        obtain rfl : first = first' := by simpa using hfirst
        exact ⟨_, hstate, hstart⟩
      · rw [candleGroups, flatten_splitCandles, hstate]
        rfl
    · left
      refine ⟨hacc, ?_⟩
      rw [runTrades, List.map_cons, runOhlcv]
      have hupdate : updateOhlcv window {} (.trade first.event) =
          .error (.value "window_s must be between 1ms and 24h") := by
        unfold updateOhlcv OhlcvState.start
        dsimp only
        rw [getSamplingBucketTs_of_not_accepted hacc]
      rw [hupdate]

/-! ### Where the stream starts -/

/-- The candles of a run. -/
def candles (window : Window) (trades : List CandleTrade) : Except PyError (List Ohlcv) :=
  (runTrades window trades).map Prod.snd

/-- The candles of every part of the stream up to its end are those of the whole stream behind the
part's first window boundary, and the trades of each candle lie in one bucket. -/
structure StartIndependent (window : Window) (trades : List CandleTrade) : Prop where
  suffixes : ∀ first rest, first :: rest <:+ trades → ∃ boundary all,
    getSamplingBucketTs first.timestamp window false = .ok boundary ∧
    candles window trades = .ok all ∧
    candles window (first :: rest) = .ok (all.filter fun c => boundary ≤ c.timestamp)
  buckets : ∀ first ∈ trades.head?, ∃ boundary all groups pending,
    getSamplingBucketTs first.timestamp window false = .ok boundary ∧
    candles window trades = .ok all ∧
    (trades.filter fun t => boundary ≤ t.timestamp) = groups.flatten ++ pending ∧
    List.Forall₂ Ohlcv.CandleOf all groups ∧
    ∀ group ∈ groups, ∀ t ∈ group, ∀ t' ∈ group,
      getSamplingBucketTs t.timestamp window true = getSamplingBucketTs t'.timestamp window true

/-- All trades at or behind the first window boundary lie within a window of each other. -/
def WithinWindow (window : Window) (trades : List CandleTrade) : Prop :=
  ∀ first ∈ trades.head?, ∀ boundary,
    getSamplingBucketTs first.timestamp window false = .ok boundary →
      ∀ t ∈ trades, ∀ t' ∈ trades, boundary ≤ t.timestamp → boundary ≤ t'.timestamp →
        t'.timestamp - t.timestamp ≤ convertStrToSeconds window

/-- Nothing is closed before a trade comes more than a window later. -/
theorem splitCandles_of_forall_le {windowS last : ℚ} {group trades : List CandleTrade}
    (h : ∀ t ∈ trades, t.timestamp - last ≤ windowS) :
    splitCandles windowS (some last) group trades = ([], group ++ trades) := by
  induction trades generalizing group with
  | nil => simp [splitCandles]
  | cons t trades ih =>
    obtain ⟨ht, htrades⟩ := List.forall_mem_cons.1 h
    rw [splitCandles, Option.getD_some, if_neg (not_lt.2 ht), ih htrades]
    simp

/-- The first such trade closes the first group. -/
theorem exists_splitCandles_eq {windowS last : ℚ} {group trades : List CandleTrade}
    (h : ∃ t ∈ trades, windowS < t.timestamp - last) :
    ∃ front t groups pending, windowS < t.timestamp - last ∧
      splitCandles windowS (some last) group trades =
        ((group ++ (front ++ [t])) :: groups, pending) := by
  induction trades generalizing group with
  | nil => simp at h
  | cons t trades ih =>
    rw [splitCandles, Option.getD_some]
    split_ifs with hgap
    · exact ⟨[], t, _, _, hgap, rfl⟩
    · have htrades := (List.exists_mem_cons_iff _ _ _).1 h |>.resolve_left hgap
      obtain ⟨front, t', groups, pending, hgap', heq⟩ : ∃ front t' groups pending,
          windowS < t'.timestamp - last ∧ splitCandles windowS (some last) (group ++ [t]) trades =
            ((group ++ [t] ++ (front ++ [t'])) :: groups, pending) := ih htrades
      exact ⟨t :: front, t', groups, pending, hgap', by rw [heq]; simp⟩

/-- Beginnings of one list of trades with the same volume are the same. -/
theorem eq_of_sum_amount_eq {g g' r r' : List CandleTrade} (h : g ++ r = g' ++ r')
    (hsum : (g.map CandleTrade.amount).sum = (g'.map CandleTrade.amount).sum) : g = g' := by
  have hnil : ∀ l : List CandleTrade, (l.map CandleTrade.amount).sum = 0 → l = [] := by
    intro l hl
    by_contra hne
    have hpos : ∀ a ∈ l.map CandleTrade.amount, 0 < a := by
      intro a ha
      obtain ⟨t, -, rfl⟩ := List.mem_map.1 ha
      exact t.amount_pos
    exact (List.sum_pos _ hpos (by simpa using hne)).ne' hl
  rcases List.append_eq_append_iff.1 h with ⟨l, rfl, -⟩ | ⟨l, rfl, -⟩
  · rw [List.map_append, List.sum_append] at hsum
    rw [hnil l (by linarith), List.append_nil]
  · rw [List.map_append, List.sum_append] at hsum
    rw [hnil l (by linarith), List.append_nil]

section Start

variable {trades : List CandleTrade} {first : CandleTrade} {rest : List CandleTrade}

/-- If all trades behind the boundary lie within a window, no group is closed. -/
theorem candleGroups_eq_nil (h : ∀ t ∈ trades, ∀ t' ∈ trades, startTs ≤ t.timestamp →
    startTs ≤ t'.timestamp → t'.timestamp - t.timestamp ≤ convertStrToSeconds window) :
    (candleGroups window startTs trades).1 = [] := by
  unfold candleGroups
  cases hfilter : trades.filter fun t => startTs ≤ t.timestamp with
  | nil => rfl
  | cons t l =>
    have hmem : ∀ u ∈ t :: l, u ∈ trades ∧ startTs ≤ u.timestamp := by
      intro u hu
      rw [← hfilter, List.mem_filter] at hu
      exact ⟨hu.1, by simpa using hu.2⟩
    have ht := hmem t List.mem_cons_self
    rw [splitCandles, Option.getD_none, sub_self,
      if_neg (not_lt.2 (convertStrToSeconds_nonneg window)), splitCandles_of_forall_le]
    intro u hu
    have hu := hmem u (List.mem_cons_of_mem t hu)
    exact h t ht.1 u hu.1 ht.2 hu.2

/-- Else the first group has two trades that are more than a window apart. -/
theorem exists_candleGroups_eq_cons
    (hsorted : trades.Pairwise fun t t' => t.timestamp ≤ t'.timestamp) {t t' : CandleTrade}
    (ht : t ∈ trades) (ht' : t' ∈ trades) (hle : startTs ≤ t.timestamp)
    (hle' : startTs ≤ t'.timestamp)
    (hgap : convertStrToSeconds window < t'.timestamp - t.timestamp) :
    ∃ group groups, (candleGroups window startTs trades).1 = group :: groups ∧
      ∃ u ∈ group, ∃ u' ∈ group, convertStrToSeconds window < u'.timestamp - u.timestamp := by
  unfold candleGroups
  have hmem : ∀ {u}, u ∈ trades → startTs ≤ u.timestamp →
      u ∈ trades.filter fun t => startTs ≤ t.timestamp :=
    fun hu hle => List.mem_filter.2 ⟨hu, by simpa using hle⟩
  have hpair := hsorted.filter fun t : CandleTrade => decide (startTs ≤ t.timestamp)
  have ht := hmem ht hle
  have ht' := hmem ht' hle'
  generalize trades.filter (fun t => startTs ≤ t.timestamp) = l at hpair ht ht'
  cases l with
  | nil => cases ht
  | cons u l =>
    have hfirst : ∀ v ∈ u :: l, u.timestamp ≤ v.timestamp := by
      intro v hv
      rcases List.mem_cons.1 hv with rfl | hv
      · exact le_rfl
      · exact (List.pairwise_cons.1 hpair).1 v hv
    have hnonneg := convertStrToSeconds_nonneg window
    -- the later of the two trades is not the first one
    have hlast : ∃ v ∈ l, convertStrToSeconds window < v.timestamp - u.timestamp := by
      have := hfirst t ht
      rcases List.mem_cons.1 ht' with rfl | ht'
      · exact absurd hgap (by linarith)
      · exact ⟨t', ht', by linarith⟩
    obtain ⟨front, v, groups, pending, hv, heq⟩ : ∃ front v groups pending,
        convertStrToSeconds window < v.timestamp - u.timestamp ∧
        splitCandles (convertStrToSeconds window) (some u.timestamp) [u] l =
          (([u] ++ (front ++ [v])) :: groups, pending) := exists_splitCandles_eq hlast
    refine ⟨[u] ++ (front ++ [v]), groups, ?_, u, by simp, v, by simp, hv⟩
    rw [splitCandles, Option.getD_none, sub_self, if_neg (not_lt.2 hnonneg), List.nil_append, heq]

/-- The first candle of a stream that is cut at its buckets closes the first group, whose trades are
then of one bucket. -/
theorem StartIndependent.withinWindow (h : StartIndependent window trades)
    (hday : window.DividesDay)
    (hsorted : trades.Pairwise fun t t' => t.timestamp ≤ t'.timestamp) :
    WithinWindow window trades := by
  intro first hfirst boundary hboundary t ht t' ht' hle hle'
  by_contra hgap
  obtain ⟨boundary', all, groups, pending, hboundary', hall, hflat, hcandles, hbucket⟩ :=
    h.buckets first hfirst
  obtain rfl := Except.ok.inj (hboundary.symm.trans hboundary')
  obtain ⟨rest, rfl⟩ := List.head?_eq_some_iff.1 hfirst
  obtain ⟨state, all', hrun, -, hcandles', -⟩ := runTrades_cons rest hboundary
  obtain rfl : all' = all := by
    have : candles window (first :: rest) = .ok all' := by rw [candles, hrun]; rfl
    exact Except.ok.inj (this.symm.trans hall)
  obtain ⟨group, groups₁, hgroups, u, hu, u', hu', hlt⟩ :=
    exists_candleGroups_eq_cons hsorted ht ht' hle hle' (not_le.1 hgap)
  have hflat' := flatten_splitCandles (convertStrToSeconds window) none []
    ((first :: rest).filter fun t => boundary ≤ t.timestamp)
  rw [← candleGroups, hgroups, List.nil_append, hflat] at hflat'
  rw [hgroups] at hcandles'
  -- the first candle is of the first group, whichever way the trades are attributed
  obtain ⟨c, cs, hc, -, rfl⟩ := List.forall₂_cons_right_iff.1 hcandles'
  obtain ⟨group', groups', hc', -, rfl⟩ := List.forall₂_cons_left_iff.1 hcandles
  rw [List.flatten_cons, List.append_assoc, List.flatten_cons, List.append_assoc] at hflat'
  obtain rfl : group = group' := eq_of_sum_amount_eq hflat' (hc.volume.symm.trans hc'.volume)
  have hsame := hbucket group List.mem_cons_self u hu u' hu'
  rw [getSamplingBucketTs_start hday.accepted, getSamplingBucketTs_start hday.accepted,
    bucketStart_eq_floorTo hday, bucketStart_eq_floorTo hday] at hsame
  exact hlt.not_gt (sub_lt_of_floorTo_eq hday.accepted.pos (Except.ok.inj hsame))

/-- If no two trades behind the boundary are more than a window apart, no part of the stream has a
candle. -/
theorem WithinWindow.candles_eq_nil (h : WithinWindow window trades) (hday : window.DividesDay)
    (hsorted : trades.Pairwise fun t t' => t.timestamp ≤ t'.timestamp) {first : CandleTrade}
    {rest : List CandleTrade} (hsuffix : first :: rest <:+ trades) :
    candles window (first :: rest) = .ok [] := by
  obtain ⟨head, tail, rfl⟩ := List.exists_cons_of_ne_nil
    (List.ne_nil_of_mem (hsuffix.subset List.mem_cons_self))
  have hstart := getSamplingBucketTs_stop hday.accepted first.timestamp
  obtain ⟨state, all, hrun, -, hcandles, -⟩ := runTrades_cons rest hstart
  have hle : head.timestamp ≤ first.timestamp := by
    rcases List.mem_cons.1 (hsuffix.subset List.mem_cons_self) with rfl | hmem
    · exact le_rfl
    · exact (List.pairwise_cons.1 hsorted).1 first hmem
  have hmono : bucketStart window head.timestamp ≤ bucketStart window first.timestamp :=
    bucketStart_mono hday hle
  have hgroups : (candleGroups window (bucketStart window first.timestamp +
      convertStrToSeconds window) (first :: rest)).1 = [] := by
    refine candleGroups_eq_nil ?_
    intro t ht t' ht' hbound hbound'
    refine h head rfl _ (getSamplingBucketTs_stop hday.accepted _) t (hsuffix.subset ht) t'
      (hsuffix.subset ht') (le_trans ?_ hbound) (le_trans ?_ hbound')
    · exact add_le_add_left hmono _
    · exact add_le_add_left hmono _
  rw [hgroups] at hcandles
  rw [List.forall₂_nil_right_iff.1 hcandles] at hrun
  rw [candles, hrun]
  rfl

/-- **Candles do not depend on where the stream starts, and keep to their buckets, if and only if
no two trades behind the boundary are more than a window apart**: then there are no candles. -/
theorem startIndependent_iff (hday : window.DividesDay)
    (hsorted : trades.Pairwise fun t t' => t.timestamp ≤ t'.timestamp) :
    StartIndependent window trades ↔ WithinWindow window trades := by
  constructor
  · intro h
    exact h.withinWindow hday hsorted
  · intro h
    constructor
    · intro first rest hsuffix
      obtain ⟨head, tail, rfl⟩ := List.exists_cons_of_ne_nil
        (List.ne_nil_of_mem (hsuffix.subset List.mem_cons_self))
      exact ⟨_, [], getSamplingBucketTs_stop hday.accepted _,
        h.candles_eq_nil hday hsorted (List.suffix_refl _), h.candles_eq_nil hday hsorted hsuffix⟩
    · intro first hfirst
      obtain ⟨rest, rfl⟩ := List.head?_eq_some_iff.1 hfirst
      exact ⟨_, [], [], _, getSamplingBucketTs_stop hday.accepted _,
        h.candles_eq_nil hday hsorted (List.suffix_refl _), rfl, .nil, by simp⟩

end Start

/-- A trade of one coin for ten. -/
def minuteTrade (timestamp : ℚ) : CandleTrade where
  timestamp := timestamp
  receiptTimestamp := timestamp
  side := .buy
  amount := 1
  price := 10
  tradeId := "t"
  trades := 1
  amount_pos := by norm_num
  price_pos := by norm_num

theorem startIndependent_iff_twoTrades :
    StartIndependent ⟨1, .m⟩ [minuteTrade 0, minuteTrade 70] ↔
      WithinWindow ⟨1, .m⟩ [minuteTrade 0, minuteTrade 70] := by
  refine startIndependent_iff ⟨1440, ?_⟩ ?_
  · norm_num [convertStrToSeconds, TimeUnit.seconds]
  · norm_num [minuteTrade]

/-- Without its first trade the stream starts a window later, and then closes its candle by another
clock than the whole stream does. -/
theorem not_startIndependent_laterStart :
    candles ⟨1, .m⟩ ([0, 60, 121, 130, 185].map minuteTrade) =
        .ok [⟨60, 60, 10, 10, 10, 10, 2, 10, 2⟩, ⟨130, 130, 10, 10, 10, 10, 2, 10, 2⟩] ∧
      candles ⟨1, .m⟩ ([60, 121, 130, 185].map minuteTrade) =
        .ok [⟨121, 121, 10, 10, 10, 10, 3, 10, 3⟩] ∧
      ¬ StartIndependent ⟨1, .m⟩ ([0, 60, 121, 130, 185].map minuteTrade) := by
  have hall : candles ⟨1, .m⟩ ([0, 60, 121, 130, 185].map minuteTrade) =
      .ok [⟨60, 60, 10, 10, 10, 10, 2, 10, 2⟩, ⟨130, 130, 10, 10, 10, 10, 2, 10, 2⟩] := by
    decide +kernel
  have hsuffix : candles ⟨1, .m⟩ ([60, 121, 130, 185].map minuteTrade) =
      .ok [⟨121, 121, 10, 10, 10, 10, 3, 10, 3⟩] := by
    decide +kernel
  refine ⟨hall, hsuffix, fun h => ?_⟩
  obtain ⟨boundary, all, -, hall', hsuffix'⟩ := h.suffixes (minuteTrade 60)
    ([121, 130, 185].map minuteTrade) (List.suffix_cons _ _)
  obtain rfl := Except.ok.inj (hall.symm.trans hall')
  have heq := Except.ok.inj (hsuffix.symm.trans hsuffix')
  -- the whole stream has no candle that starts at 121
  have hmem : (⟨121, 121, 10, 10, 10, 10, 3, 10, 3⟩ : Ohlcv) ∈
      [⟨60, 60, 10, 10, 10, 10, 2, 10, 2⟩, ⟨130, 130, 10, 10, 10, 10, 2, 10, 2⟩] :=
    (List.filter_subset_self _) (heq ▸ List.mem_singleton_self _)
  simp at hmem

end Svoe
