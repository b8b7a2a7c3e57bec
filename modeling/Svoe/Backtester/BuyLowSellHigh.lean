import Svoe.Backtester.Update
import Svoe.Series.LatchedExtrema

/-!
# The strategy buy low, sell high

For each of its instruments `BuyLowSellHighStrategy` keeps the last three prices and the latest
local extrema since the last order, and buys and sells by turns.  Price updates, and the calls of
the simulator behind them, are the actions of a transition system that also keeps what came of each
update.

* `Follows.update` : what one price update makes of the state of its instrument.
* `exists_makeOrder` : its order can be made.
* `TradingInv.step` : all actions keep the invariant.
* `followsSignal_of_run` : in every run the orders follow the signal, and no update raises.
-/

namespace Svoe

namespace Backtester

open Raising Series

/-! ### The state of an instrument -/

/-- `_StatePerInstrument`.  Its wallets are given by their assets. -/
structure StatePerInstrument where
  instrument : Instrument
  quoteAllocation : ℚ
  baseWallet : AssetInstrument
  quoteWallet : AssetInstrument
  localMin : Option ℚ
  localMax : Option ℚ
  threeVals : List ℚ
  isBuying : Bool
  buySignalThresh : ℚ
  sellSignalThresh : ℚ
  deriving DecidableEq, Repr

/-- `params[key]`. -/
def getThresh (params : List (String × ℚ)) (key : String) : Except PyError ℚ :=
  match dictGet params key with
  | some thresh => .ok thresh
  | none => .error (.key key)

/-- `free_balance` of the wallet of an asset. -/
def freeBalance (p : Portfolio) (a : AssetInstrument) : ℚ :=
  ((p.wallets.find? fun w => w.assetInstrument = a).map Wallet.balance).getD 0

/-- `_is_local_min`. -/
def isLocalMin : List ℚ → Bool
  | a :: b :: c :: _ => a > b && c > b
  | _ => false

/-- `_is_local_max`. -/
def isLocalMax : List ℚ → Bool
  | a :: b :: c :: _ => a < b && c < b
  | _ => false

namespace StatePerInstrument

/-- `_StatePerInstrument.__init__`. -/
def init (instrument : Instrument) (portfolio : Portfolio)
    (buySignalThresh sellSignalThresh quoteAllocation : ℚ) :
    Except PyError StatePerInstrument := do
  let (base, quote) ← toAssetInstruments instrument
  let baseWallet ← portfolio.getWallet base
  let quoteWallet ← portfolio.getWallet quote
  return {
    instrument := instrument
    quoteAllocation := quoteAllocation
    baseWallet := baseWallet.assetInstrument
    quoteWallet := quoteWallet.assetInstrument
    localMin := none
    localMax := none
    threeVals := []
    isBuying := true
    buySignalThresh := buySignalThresh
    sellSignalThresh := sellSignalThresh }

/-- The first part of `on_price_update`: the last three values and the extrema among them. -/
def observe (st : StatePerInstrument) (midPrice : ℚ) : StatePerInstrument :=
  let threeVals := st.threeVals ++ [midPrice]
  let threeVals := if threeVals.length > 3 then threeVals.drop 1 else threeVals
  { st with
    threeVals := threeVals
    localMin := if isLocalMin threeVals then threeVals[1]? else st.localMin
    localMax := if isLocalMax threeVals then threeVals[1]? else st.localMax }

/-- The conditions of `on_price_update`: the side of the order that it makes.  The threshold of the
sell signal is the one for buying. -/
def signal (st : StatePerInstrument) (midPrice : ℚ) : Option OrderSide :=
  if st.isBuying then
    match st.localMin with
    | none => none
    | some localMin =>
      if midPrice - localMin > st.sellSignalThresh * localMin then some .buy else none
  else
    match st.localMax with
    | none => none
    | some localMax =>
      if localMax - midPrice > st.buySignalThresh * localMax then some .sell else none

/-- The state when an order is made: the position changes and the old values are reset. -/
def reset (st : StatePerInstrument) (side : OrderSide) : StatePerInstrument :=
  { st with
    isBuying := match side with
      | .buy => false
      | .sell => true
    localMin := none
    localMax := none }

/-- The order of `on_price_update`. -/
def makeOrder (st : StatePerInstrument) (side : OrderSide) (midPrice : ℚ) : Sim Order := do
  let s ← get
  match side with
  | .buy => do
    let qty ← lift
      (divide (9 / 10 * st.quoteAllocation * freeBalance s.portfolio st.quoteWallet) midPrice)
    Backtester.makeOrder .buy .market st.instrument qty midPrice
  | .sell =>
    Backtester.makeOrder .sell .market st.instrument
      (9 / 10 * freeBalance s.portfolio st.baseWallet) midPrice

end StatePerInstrument

/-! ### The strategy -/

/-- `BuyLowSellHighStrategy`, and the backtest in which it trades. -/
structure BuyLowSellHigh where
  backtest : Backtest
  states : List (Instrument × StatePerInstrument)

/-- `BuyLowSellHighStrategy.__init__`: the states of all instruments. -/
def initStates (portfolio : Portfolio) (params : List (String × ℚ)) (instruments : List Instrument) :
    Except PyError (List (Instrument × StatePerInstrument)) := do
  let states ← instruments.mapM fun instrument => do
    let buySignalThresh ← getThresh params "buy_signal_thresh"
    let sellSignalThresh ← getThresh params "sell_signal_thresh"
    let state ← StatePerInstrument.init instrument portfolio buySignalThresh sellSignalThresh
      (1 / instruments.length)
    return (instrument, state)
  return dictOf states

/-- A part of the strategy that concerns the backtest. -/
def trade {α : Type} (x : Sim α) : Raising BuyLowSellHigh PyError α := fun s =>
  ((x s.backtest).1, { s with backtest := (x s.backtest).2 })

/-- `states[instrument]` has changed. -/
def setState (instrument : Instrument) (st : StatePerInstrument) :
    Raising BuyLowSellHigh PyError Unit :=
  modify fun s => { s with states := dictSet s.states instrument st }

/-- `on_price_update` of the state `st` of an instrument. -/
def onPriceUpdate (instrument : Instrument) (st : StatePerInstrument) (midPrice : ℚ) :
    Raising BuyLowSellHigh PyError (Option (List Order)) :=
  match (st.observe midPrice).signal midPrice with
  | none => do
    setState instrument (st.observe midPrice)
    return none
  | some side => do
    setState instrument ((st.observe midPrice).reset side)
    let order ← trade (((st.observe midPrice).reset side).makeOrder side midPrice)
    return some [order]

/-! ### Runs -/

/-- A price update, and what came of it. -/
structure PriceUpdate where
  instrument : Instrument
  midPrice : ℚ
  result : Except PyError (Option (List Order))

/-- The side of the order that was made. -/
def PriceUpdate.made (u : PriceUpdate) : Option OrderSide :=
  match u.result with
  | .ok (some (order :: _)) => some order.side
  | _ => none

/-- The strategy in a backtest, with all its price updates. -/
structure Trading where
  strategy : BuyLowSellHigh
  updates : List PriceUpdate

/-- The actions of a backtest with the strategy. -/
inductive TradingAction where
  | priceUpdate (instrument : Instrument) (midPrice : ℚ)
  /-- Orders are staged or executed, or the generator goes on. -/
  | call (call : Call)
  deriving DecidableEq

/-- One action.  Only the strategy makes orders. -/
def tradingStep (s : Trading) : TradingAction → Option Trading
  | .priceUpdate instrument midPrice =>
    (dictGet s.strategy.states instrument).map fun st =>
      let p := onPriceUpdate instrument st midPrice s.strategy
      ⟨p.2, s.updates ++ [⟨instrument, midPrice, p.1⟩]⟩
  | .call (.makeOrder _ _ _ _ _) => none
  | .call call =>
    (Backtester.step s.strategy.backtest call).map fun backtest =>
      { s with strategy := { s.strategy with backtest := backtest } }

/-- Prices are positive. -/
def TradingAction.Ok : TradingAction → Prop
  | .priceUpdate _ midPrice => 0 < midPrice
  | .call c => c.Ok

/-- The updates of an instrument. -/
def updatesOf (instrument : Instrument) (updates : List PriceUpdate) : List PriceUpdate :=
  updates.filter fun u => u.instrument = instrument

/-! ### The signal -/

/-- The side of the last order. -/
def lastSide (updates : List PriceUpdate) : Option OrderSide :=
  (updates.filterMap PriceUpdate.made).getLast?

/-- The number of updates up to the last one that made an order. -/
def upToLastOrder (updates : List PriceUpdate) : ℕ :=
  (updates.reverse.dropWhile fun u => u.made = none).length

/-- All prices up to the current one. -/
def pricesWith (updates : List PriceUpdate) (midPrice : ℚ) : List ℚ :=
  updates.map PriceUpdate.midPrice ++ [midPrice]

/-- After the updates, the price is the one to buy at: the instrument is out of position, and the
price exceeds the latest local minimum that was found since the last order. -/
def BuySignal (thresh : ℚ) (updates : List PriceUpdate) (midPrice : ℚ) : Prop :=
  lastSide updates ≠ some .buy ∧ ∃ localMin,
    LatestExtremum (· < ·) (pricesWith updates midPrice) (upToLastOrder updates) localMin ∧
      midPrice - localMin > thresh * localMin

/-- After the updates, the price is the one to sell at: the instrument is in position, and the price
is below the latest local maximum that was found since the last order. -/
def SellSignal (thresh : ℚ) (updates : List PriceUpdate) (midPrice : ℚ) : Prop :=
  lastSide updates = some .buy ∧ ∃ localMax,
    LatestExtremum (· > ·) (pricesWith updates midPrice) (upToLastOrder updates) localMax ∧
      localMax - midPrice > thresh * localMax

/-- `BUY, SELL, BUY, ...`. -/
def Alternates (sides : List OrderSide) : Prop :=
  sides.IsChain (· ≠ ·) ∧ sides.head? ≠ some .sell

/-- What came of the updates of an instrument. -/
structure FollowsSignal (buyThresh sellThresh : ℚ) (updates : List PriceUpdate) : Prop where
  /-- No update raises: it returns nothing, or the order it made. -/
  returns : ∀ u ∈ updates, u.result = .ok none ∨ ∃ order, u.result = .ok (some [order]) ∧
    order.instrument = u.instrument ∧ order.orderType = .market ∧ order.price = u.midPrice
  alternates : Alternates (updates.filterMap PriceUpdate.made)
  buys : ∀ before u behind, updates = before ++ u :: behind →
    (u.made = some .buy ↔ BuySignal buyThresh before u.midPrice)
  sells : ∀ before u behind, updates = before ++ u :: behind →
    (u.made = some .sell ↔ SellSignal sellThresh before u.midPrice)

/-! ### Price updates -/

variable {st : StatePerInstrument} {us : List PriceUpdate} {u : PriceUpdate} {midPrice : ℚ}
  {buyThresh sellThresh : ℚ}

theorem upToLastOrder_le (us : List PriceUpdate) : upToLastOrder us ≤ us.length := by
  rw [upToLastOrder, ← us.length_reverse]
  exact (List.dropWhile_sublist _).length_le

theorem upToLastOrder_of_none (hu : u.made = none) :
    upToLastOrder (us ++ [u]) = upToLastOrder us := by
  rw [upToLastOrder, List.reverse_append, List.reverse_singleton, List.singleton_append,
    List.dropWhile_cons_of_pos (by simpa using hu), ← upToLastOrder]

theorem upToLastOrder_of_some (hu : u.made ≠ none) :
    upToLastOrder (us ++ [u]) = us.length + 1 := by
  rw [upToLastOrder, List.reverse_append, List.reverse_singleton, List.singleton_append,
    List.dropWhile_cons_of_neg (by simpa using hu), List.length_cons, List.length_reverse]

theorem lastSide_append (us : List PriceUpdate) (u : PriceUpdate) :
    lastSide (us ++ [u]) = u.made.or (lastSide us) := by
  rw [lastSide, List.filterMap_append]
  cases hu : u.made <;> simp [hu, lastSide]

theorem isLocalMin_of_length_lt (w : List ℚ) (hw : w.length < 3) : isLocalMin w = false := by
  rcases w with _ | ⟨a, _ | ⟨b, _ | ⟨c, w⟩⟩⟩
  · rfl
  · rfl
  · rfl
  · simp at hw
    omega

theorem isLocalMax_of_length_lt (w : List ℚ) (hw : w.length < 3) : isLocalMax w = false := by
  rcases w with _ | ⟨a, _ | ⟨b, _ | ⟨c, w⟩⟩⟩
  · rfl
  · rfl
  · rfl
  · simp at hw
    omega

theorem isLocalMin_three (a b c : ℚ) : isLocalMin [a, b, c] = true ↔ b < a ∧ b < c := by
  simp [isLocalMin]

theorem isLocalMax_three (a b c : ℚ) : isLocalMax [a, b, c] = true ↔ b > a ∧ b > c := by
  simp [isLocalMax]

/-- The state after some updates. -/
structure Follows (st : StatePerInstrument) (us : List PriceUpdate) : Prop where
  threeVals : st.threeVals = window (us.map PriceUpdate.midPrice)
  isBuying : st.isBuying = true ↔ lastSide us ≠ some .buy
  localMin : ∀ m, st.localMin = some m ↔
    LatestExtremum (· < ·) (us.map PriceUpdate.midPrice) (upToLastOrder us) m
  localMax : ∀ m, st.localMax = some m ↔
    LatestExtremum (· > ·) (us.map PriceUpdate.midPrice) (upToLastOrder us) m

/-- A latch takes the value in the middle of the window if the test finds an extremum there. -/
theorem latch_eq_or (found : List ℚ → Bool) (hshort : ∀ w, w.length < 3 → found w = false)
    (w : List ℚ) (old : Option ℚ) :
    (if found w then w[1]? else old) = (if found w then w[1]? else none).or old := by
  cases hw : found w with
  | false => rfl
  | true =>
    have hlength : 1 < w.length := by
      by_contra hlt
      rw [hshort w (by omega)] at hw
      cases hw
    simp [hlength]

/-- What is observed of a price. -/
theorem Follows.observe (h : Follows st us) (midPrice : ℚ) :
    (st.observe midPrice).threeVals = window (pricesWith us midPrice) ∧
      (∀ m, (st.observe midPrice).localMin = some m ↔
        LatestExtremum (· < ·) (pricesWith us midPrice) (upToLastOrder us) m) ∧
      ∀ m, (st.observe midPrice).localMax = some m ↔
        LatestExtremum (· > ·) (pricesWith us midPrice) (upToLastOrder us) m := by
  have hwindow : (st.observe midPrice).threeVals = window (pricesWith us midPrice) := by
    rw [pricesWith, window_append, ← h.threeVals]
    rfl
  have hsince : upToLastOrder us ≤ (us.map PriceUpdate.midPrice).length := by
    rw [List.length_map]
    exact upToLastOrder_le us
  refine ⟨hwindow, fun m => ?_, fun m => ?_⟩
  · have hlatch : (st.observe midPrice).localMin =
        if isLocalMin (st.observe midPrice).threeVals then (st.observe midPrice).threeVals[1]?
        else st.localMin := rfl
    rw [hlatch, hwindow, latch_eq_or isLocalMin isLocalMin_of_length_lt]
    exact latched_iff hsince (fun m' =>
      middle_window_iff isLocalMin_of_length_lt isLocalMin_three _ _ m') h.localMin m
  · have hlatch : (st.observe midPrice).localMax =
        if isLocalMax (st.observe midPrice).threeVals then (st.observe midPrice).threeVals[1]?
        else st.localMax := rfl
    rw [hlatch, hwindow, latch_eq_or isLocalMax isLocalMax_of_length_lt]
    exact latched_iff hsince (fun m' =>
      middle_window_iff isLocalMax_of_length_lt isLocalMax_three _ _ m') h.localMax m

/-- **The strategy buys** exactly at the signal. -/
theorem Follows.signal_eq_buy_iff (h : Follows st us) (midPrice : ℚ) :
    (st.observe midPrice).signal midPrice = some .buy ↔
      BuySignal st.sellSignalThresh us midPrice := by
  obtain ⟨-, hmin, -⟩ := h.observe midPrice
  rw [BuySignal, ← h.isBuying]
  have hbuying : (st.observe midPrice).isBuying = st.isBuying := rfl
  have hthresh : (st.observe midPrice).sellSignalThresh = st.sellSignalThresh := rfl
  simp only [← hmin, StatePerInstrument.signal, hbuying, hthresh]
  cases st.isBuying with
  | false => cases (st.observe midPrice).localMax <;> simp
  | true => cases (st.observe midPrice).localMin <;> simp [lt_sub_iff_add_lt]

/-- **The strategy sells** exactly at the signal. -/
theorem Follows.signal_eq_sell_iff (h : Follows st us) (midPrice : ℚ) :
    (st.observe midPrice).signal midPrice = some .sell ↔
      SellSignal st.buySignalThresh us midPrice := by
  obtain ⟨-, -, hmax⟩ := h.observe midPrice
  have hbuying : (st.observe midPrice).isBuying = st.isBuying := rfl
  have hthresh : (st.observe midPrice).buySignalThresh = st.buySignalThresh := rfl
  have hposition : lastSide us = some .buy ↔ st.isBuying = false := by
    rw [← not_iff_not, ← ne_eq, ← h.isBuying, Bool.not_eq_false]
  rw [SellSignal, hposition]
  simp only [← hmax, StatePerInstrument.signal, hbuying, hthresh]
  cases st.isBuying with
  | false => cases (st.observe midPrice).localMax <;> simp [lt_sub_iff_add_lt]
  | true => cases (st.observe midPrice).localMin <;> simp

/-- The state of an instrument after a price update. -/
def StatePerInstrument.updated (st : StatePerInstrument) (midPrice : ℚ) : StatePerInstrument :=
  match (st.observe midPrice).signal midPrice with
  | none => st.observe midPrice
  | some side => (st.observe midPrice).reset side

/-- **What one price update makes of the state** of its instrument. -/
theorem Follows.update (h : Follows st us)
    (hu : u.made = (st.observe u.midPrice).signal u.midPrice) :
    Follows (st.updated u.midPrice) (us ++ [u]) := by
  obtain ⟨hwindow, hmin, hmax⟩ := h.observe u.midPrice
  have hprices : (us ++ [u]).map PriceUpdate.midPrice = pricesWith us u.midPrice := by
    rw [List.map_append]
    rfl
  unfold StatePerInstrument.updated
  cases hsignal : (st.observe u.midPrice).signal u.midPrice with
  | none =>
    rw [hsignal] at hu
    refine ⟨hwindow.trans (by rw [hprices]), ?_, fun m => ?_, fun m => ?_⟩
    · rw [lastSide_append, hu]
      exact h.isBuying
    · rw [hprices, upToLastOrder_of_none hu]
      exact hmin m
    · rw [hprices, upToLastOrder_of_none hu]
      exact hmax m
  | some side =>
    rw [hsignal] at hu
    have hne : u.made ≠ none := by rw [hu]; exact Option.some_ne_none side
    have hlength : upToLastOrder (us ++ [u]) = ((us ++ [u]).map PriceUpdate.midPrice).length := by
      rw [upToLastOrder_of_some hne, List.length_map, List.length_append, List.length_singleton]
    refine ⟨hwindow.trans (by rw [hprices]), ?_, fun m => ?_, fun m => ?_⟩
    · rw [lastSide_append, hu]
      cases side <;> simp [StatePerInstrument.reset]
    · -- an extremum that was found with this price is forgotten, too
      rw [hlength]
      exact iff_of_false nofun not_latestExtremum_length
    · rw [hlength]
      exact iff_of_false nofun not_latestExtremum_length

/-- An order of the other side goes on. -/
theorem alternates_append {sides : List OrderSide} {side : OrderSide} (h : Alternates sides)
    (hside : side = .buy ↔ sides.getLast? ≠ some .buy) : Alternates (sides ++ [side]) := by
  refine ⟨?_, ?_⟩
  · rw [List.isChain_append]
    refine ⟨h.1, List.isChain_singleton side, fun x hx y hy => ?_⟩
    obtain rfl := Option.some.inj hy
    rintro rfl
    rw [Option.mem_def] at hx
    rw [hx] at hside
    cases x <;> simp at hside
  · cases sides with
    | nil =>
      rw [hside.2 nofun]
      nofun
    | cons x sides => exact h.2

theorem followsSignal_nil : FollowsSignal buyThresh sellThresh [] where
  returns := nofun
  alternates := ⟨.nil, nofun⟩
  buys before u behind h := absurd h (by simp)
  sells before u behind h := absurd h (by simp)

/-- What holds of every update holds after one more. -/
theorem forall_append_cons_iff {P : List PriceUpdate → PriceUpdate → Prop} :
    (∀ before u' behind, us ++ [u] = before ++ u' :: behind → P before u') ↔
      (∀ before u' behind, us = before ++ u' :: behind → P before u') ∧ P us u := by
  constructor
  · intro h
    refine ⟨fun before u' behind hus => h before u' (behind ++ [u]) ?_, h us u [] rfl⟩
    rw [hus, List.append_assoc, List.cons_append]
  · rintro ⟨h, hlast⟩ before u' behind hus
    rcases List.eq_nil_or_concat behind with rfl | ⟨behind, b, rfl⟩
    · obtain ⟨rfl, hu⟩ := List.append_inj' hus rfl
      rwa [List.singleton_inj.1 hu] at hlast
    · rw [List.concat_eq_append, ← List.cons_append, ← List.append_assoc] at hus
      exact h before u' behind (List.append_inj' hus rfl).1

/-- **One more update follows the signal.** -/
theorem FollowsSignal.append (h : FollowsSignal st.sellSignalThresh st.buySignalThresh us)
    (hst : Follows st us) (hu : u.made = (st.observe u.midPrice).signal u.midPrice)
    (hreturns : u.result = .ok none ∨ ∃ order, u.result = .ok (some [order]) ∧
      order.instrument = u.instrument ∧ order.orderType = .market ∧ order.price = u.midPrice) :
    FollowsSignal st.sellSignalThresh st.buySignalThresh (us ++ [u]) := by
  have hbuy : u.made = some .buy ↔ BuySignal st.sellSignalThresh us u.midPrice := by
    rw [hu]
    exact hst.signal_eq_buy_iff u.midPrice
  have hsell : u.made = some .sell ↔ SellSignal st.buySignalThresh us u.midPrice := by
    rw [hu]
    exact hst.signal_eq_sell_iff u.midPrice
  refine ⟨fun u' hu' => ?_, ?_, forall_append_cons_iff.2 ⟨h.buys, hbuy⟩,
    forall_append_cons_iff.2 ⟨h.sells, hsell⟩⟩
  · rcases List.mem_append.1 hu' with hu' | hu'
    · exact h.returns u' hu'
    · rwa [List.mem_singleton.1 hu']
  · rw [List.filterMap_append]
    cases hmade : u.made with
    | none => simpa [hmade] using h.alternates
    | some side =>
      have hlast : side = .buy ↔ lastSide us ≠ some .buy := by
        cases side with
        | buy => exact iff_of_true rfl (hbuy.1 hmade).1
        | sell => exact iff_of_false nofun (not_not.2 (hsell.1 hmade).1)
      simpa [hmade] using alternates_append h.alternates hlast

/-! ### Orders -/

/-- The invariant of the funds, with the assets of the wallets. -/
def HasAssets (assets : List AssetInstrument) (s : Backtest) : Prop :=
  Inv s ∧ s.portfolio.wallets.map Wallet.assetInstrument = assets

variable {s : Backtest} {assets : List AssetInstrument} {order : Order} {a : AssetInstrument}
  {wallet : Wallet}

theorem accounting_hasAssets : Accounting (HasAssets assets) where
  inv h := h.1
  congr h hportfolio hmade hfills hmid :=
    ⟨accounting_inv.congr h.1 hportfolio hmade hfills hmid, by rw [hportfolio]; exact h.2⟩
  filled h hcur hopen hf := by
    refine ⟨h.1.filled hcur hopen hf, ?_⟩
    rw [filled_portfolio hf]
    refine (Portfolio.assets_modifyWallet ?_).trans
      ((Portfolio.assets_modifyWallet ?_).trans h.2)
    · exact fun _ => rfl
    · exact fun _ => rfl

theorem HasAssets.made (h : HasAssets assets s) (hm : Makes s order a wallet)
    (hqty : 0 ≤ order.lockedQty) : HasAssets assets (s.made order a wallet) := by
  refine ⟨h.1.made hm hqty, ?_⟩
  rw [made_portfolio hm]
  refine (Portfolio.assets_modifyWallet ?_).trans h.2
  exact fun _ => rfl

theorem freeBalance_of_getWallet {p : Portfolio} (h : p.getWallet a = .ok wallet) :
    freeBalance p a = wallet.balance := by
  obtain ⟨before, behind, hwallets, ha, hother⟩ := Portfolio.exists_append_of_getWallet h
  rw [freeBalance, hwallets, List.find?_append, List.find?_cons_of_pos (by simpa using ha),
    List.find?_eq_none.2 fun w hw => by simpa using hother w (List.mem_append_left _ hw)]
  rfl

/-- A new order has no amount locked yet. -/
theorem Inv.length_notMem_locked (hinv : Inv s) (h : s.portfolio.getWallet a = .ok wallet) :
    s.madeOrders.length ∉ wallet.locked := by
  intro hmem
  obtain ⟨qty, hqty⟩ := Option.isSome_iff_exists.1 (Finmap.lookup_isSome.2 hmem)
  obtain ⟨-, order, horder, -⟩ :=
    (hinv.wallets wallet (Portfolio.mem_wallets_of_getWallet h).1).locked _ qty hqty
  exact absurd (List.getElem?_eq_some_iff.1 horder).1 (Nat.lt_irrefl _)

/-- What a state of an instrument has: its wallets, and a part of the quote wallet. -/
structure StateInv (assets : List AssetInstrument) (instrument : Instrument)
    (st : StatePerInstrument) : Prop where
  instrument_eq : st.instrument = instrument
  assets_eq : toAssetInstruments instrument = .ok (st.baseWallet, st.quoteWallet)
  base : assets.count st.baseWallet = 1
  quote : assets.count st.quoteWallet = 1
  allocation_nonneg : 0 ≤ st.quoteAllocation
  allocation_le : st.quoteAllocation ≤ 1

/-- **The order of a price update can be made.** -/
theorem exists_makeOrder {instrument : Instrument} (h : HasAssets assets s)
    (hst : StateInv assets instrument st) {side : OrderSide}
    (hprice : side = .buy → midPrice ≠ 0) :
    ∃ order a wallet, Makes s order a wallet ∧ 0 ≤ order.lockedQty ∧ order.side = side ∧
      order.instrument = instrument ∧ order.orderType = .market ∧ order.price = midPrice ∧
      st.makeOrder side midPrice s = (.ok order, s.made order a wallet) := by
  obtain ⟨base, hbase⟩ : ∃ w, s.portfolio.getWallet st.baseWallet = .ok w :=
    exists_getWallet_iff.2 (h.2.symm ▸ hst.base)
  obtain ⟨quote, hquote⟩ : ∃ w, s.portfolio.getWallet st.quoteWallet = .ok w :=
    exists_getWallet_iff.2 (h.2.symm ▸ hst.quote)
  have hnonneg : ∀ {a w}, s.portfolio.getWallet a = .ok w → 0 ≤ w.balance := fun hw =>
    (h.1.wallets _ (Portfolio.mem_wallets_of_getWallet hw).1).balance_nonneg
  rw [StatePerInstrument.makeOrder, get_bind, freeBalance_of_getWallet hbase,
    freeBalance_of_getWallet hquote, hst.instrument_eq]
  cases side with
  | buy =>
    -- a part of the free quote balance is locked
    have hlocked : midPrice * (9 / 10 * st.quoteAllocation * quote.balance / midPrice) =
        9 / 10 * st.quoteAllocation * quote.balance := mul_div_cancel₀ _ (hprice rfl)
    have hpart : 9 / 10 * st.quoteAllocation ≤ 1 := by linarith [hst.allocation_le]
    have hpart_nonneg : 0 ≤ 9 / 10 * st.quoteAllocation :=
      mul_nonneg (by norm_num) hst.allocation_nonneg
    have hm : Makes s ⟨s.madeOrders.length, .market, .buy, instrument, midPrice,
        9 / 10 * st.quoteAllocation * quote.balance / midPrice, .opened⟩ st.quoteWallet quote := by
      refine ⟨rfl, rfl, map_eq_ok_iff.2 ⟨_, hst.assets_eq, rfl⟩, hquote,
        ⟨_, base, map_eq_ok_iff.2 ⟨_, hst.assets_eq, rfl⟩, hbase⟩, ?_,
        h.1.length_notMem_locked hquote⟩
      exact hlocked.le.trans (mul_le_of_le_one_left (hnonneg hquote) hpart)
    refine ⟨_, _, _, hm, ?_, rfl, rfl, rfl, rfl, ?_⟩
    · exact (mul_nonneg hpart_nonneg (hnonneg hquote)).trans hlocked.ge
    · dsimp only
      rw [divide, if_neg (hprice rfl), lift_ok_bind]
      exact makeOrder_of_makes hm
  | sell =>
    have hm : Makes s ⟨s.madeOrders.length, .market, .sell, instrument, midPrice,
        9 / 10 * base.balance, .opened⟩ st.baseWallet base := by
      refine ⟨rfl, rfl, map_eq_ok_iff.2 ⟨_, hst.assets_eq, rfl⟩, hbase,
        ⟨_, quote, map_eq_ok_iff.2 ⟨_, hst.assets_eq, rfl⟩, hquote⟩, ?_,
        h.1.length_notMem_locked hbase⟩
      exact mul_le_of_le_one_left (hnonneg hbase) (by norm_num)
    refine ⟨_, _, _, hm, ?_, rfl, rfl, rfl, rfl, makeOrder_of_makes hm⟩
    exact mul_nonneg (by norm_num) (hnonneg hbase)

/-! ### The invariant of a run -/

variable {instrument : Instrument} {t : BuyLowSellHigh}

theorem StateInv.updated (h : StateInv assets instrument st) (midPrice : ℚ) :
    StateInv assets instrument (st.updated midPrice) := by
  unfold StatePerInstrument.updated
  cases (st.observe midPrice).signal midPrice <;> exact ⟨h.1, h.2, h.3, h.4, h.5, h.6⟩

theorem updated_thresh (st : StatePerInstrument) (midPrice : ℚ) :
    (st.updated midPrice).sellSignalThresh = st.sellSignalThresh ∧
      (st.updated midPrice).buySignalThresh = st.buySignalThresh := by
  unfold StatePerInstrument.updated
  cases (st.observe midPrice).signal midPrice <;> exact ⟨rfl, rfl⟩

theorem trade_of_eq {α : Type} {x : Sim α} {result : Except PyError α} {backtest : Backtest}
    (h : x t.backtest = (result, backtest)) :
    trade x t = (result, { t with backtest := backtest }) := by
  rw [trade, h]

/-- **A price update** returns, with an order if there is a signal. -/
theorem onPriceUpdate_spec (h : HasAssets assets t.backtest) (hst : StateInv assets instrument st)
    (hprice : (st.observe midPrice).signal midPrice = some .buy → midPrice ≠ 0) :
    ∃ orders backtest, onPriceUpdate instrument st midPrice t =
        (.ok orders, ⟨backtest, dictSet t.states instrument (st.updated midPrice)⟩) ∧
      HasAssets assets backtest ∧
      PriceUpdate.made ⟨instrument, midPrice, .ok orders⟩ =
        (st.observe midPrice).signal midPrice ∧
      (orders = none ∨ ∃ order, orders = some [order] ∧ order.instrument = instrument ∧
        order.orderType = .market ∧ order.price = midPrice) := by
  have hupdated := hst.updated midPrice
  unfold StatePerInstrument.updated at hupdated ⊢
  unfold onPriceUpdate
  cases hsignal : (st.observe midPrice).signal midPrice with
  | none => exact ⟨none, t.backtest, rfl, h, rfl, .inl rfl⟩
  | some side =>
    rw [hsignal] at hprice hupdated
    obtain ⟨order, a, wallet, hm, hqty, rfl, hinstrument, htype, horderPrice, hmake⟩ :=
      exists_makeOrder h hupdated fun hbuy => hprice (congrArg some hbuy)
    refine ⟨some [order], t.backtest.made order a wallet, ?_, h.made hm hqty, rfl,
      .inr ⟨order, rfl, hinstrument, htype, horderPrice⟩⟩
    exact (modify_bind _ _).trans (bind_of_ok (trade_of_eq hmake))

/-- What holds of every instrument between two actions. -/
structure TradingInv (assets : List AssetInstrument) (instruments : List Instrument)
    (buyThresh sellThresh : ℚ) (s : Trading) : Prop where
  funds : HasAssets assets s.strategy.backtest
  keys_nodup : (s.strategy.states.map Prod.fst).Nodup
  keys : instruments ⊆ s.strategy.states.map Prod.fst
  states : ∀ instrument st, dictGet s.strategy.states instrument = some st →
    StateInv assets instrument st ∧ Follows st (updatesOf instrument s.updates)
  thresh : ∀ instrument st, dictGet s.strategy.states instrument = some st →
    st.sellSignalThresh = buyThresh ∧ st.buySignalThresh = sellThresh
  follows : ∀ instrument ∈ s.strategy.states.map Prod.fst,
    FollowsSignal buyThresh sellThresh (updatesOf instrument s.updates)

theorem updatesOf_append (instrument : Instrument) (updates : List PriceUpdate) (u : PriceUpdate) :
    updatesOf instrument (updates ++ [u]) =
      if u.instrument = instrument then updatesOf instrument updates ++ [u]
      else updatesOf instrument updates := by
  rw [updatesOf, List.filter_append]
  by_cases hu : u.instrument = instrument <;> simp [hu, updatesOf]

variable {s₀ s₁ : Trading} {instruments : List Instrument} {action : TradingAction}

theorem tradingStep_call {call : Call} (h : tradingStep s₀ (.call call) = some s₁) :
    (∀ side orderType i qty price, call ≠ .makeOrder side orderType i qty price) ∧
      ∃ backtest, Backtester.step s₀.strategy.backtest call = some backtest ∧
        s₁ = { s₀ with strategy := { s₀.strategy with backtest := backtest } } := by
  cases call with
  | makeOrder side orderType i qty price => cases h
  | stageForExecution orders =>
    obtain ⟨backtest, hcall, rfl⟩ := Option.map_eq_some_iff.1 h
    exact ⟨nofun, backtest, hcall, rfl⟩
  | updateState =>
    rw [tradingStep, Option.map_eq_some_iff] at h
    · obtain ⟨backtest, hcall, rfl⟩ := h
      exact ⟨nofun, backtest, hcall, rfl⟩
    · nofun
  | next now midPrices =>
    rw [tradingStep, Option.map_eq_some_iff] at h
    · obtain ⟨backtest, hcall, rfl⟩ := h
      exact ⟨nofun, backtest, hcall, rfl⟩
    · nofun

/-- The calls of the simulator keep the funds, and do not change the strategy. -/
theorem TradingInv.call (h : TradingInv assets instruments buyThresh sellThresh s₀) {call : Call}
    (hok : call.Ok) (hstep : tradingStep s₀ (.call call) = some s₁) :
    TradingInv assets instruments buyThresh sellThresh s₁ := by
  have hkeep : ∀ {backtest}, Backtester.step s₀.strategy.backtest call = some backtest →
      (∀ side orderType i qty price, call ≠ .makeOrder side orderType i qty price) →
      HasAssets assets backtest := by
    intro backtest hcall hne
    refine accounting_hasAssets.step hok h.funds hcall ?_ ?_
    · rintro side orderType i qty price rfl
      exact absurd rfl (hne side orderType i qty price)
    · rintro now midPrices rfl
      exact ⟨⟨h.funds.1.assets_nodup, h.funds.1.wallets, h.funds.1.madeOrders, h.funds.1.fills,
        hok⟩, h.funds.2⟩
  obtain ⟨hne, backtest, hcall, rfl⟩ := tradingStep_call hstep
  exact ⟨hkeep hcall hne, h.keys_nodup, h.keys, h.states, h.thresh, h.follows⟩

/-- A price update keeps the invariant. -/
theorem TradingInv.priceUpdate (h : TradingInv assets instruments buyThresh sellThresh s₀)
    (hprice : 0 < midPrice)
    (hstep : tradingStep s₀ (.priceUpdate instrument midPrice) = some s₁) :
    TradingInv assets instruments buyThresh sellThresh s₁ := by
  obtain ⟨st, hst, rfl⟩ := Option.map_eq_some_iff.1 hstep
  obtain ⟨hinv, hfollows⟩ := h.states instrument st hst
  obtain ⟨hsell, hbuy⟩ := h.thresh instrument st hst
  obtain ⟨orders, backtest, hupdate, hfunds, hmade, hreturns⟩ :=
    onPriceUpdate_spec h.funds hinv fun _ => hprice.ne'
  have hmem : instrument ∈ s₀.strategy.states.map Prod.fst := by
    by_contra hnot
    rw [dictGet_eq_none_iff.2 hnot] at hst
    cases hst
  have hsignal := h.follows instrument hmem
  simp only [hupdate]
  have hkeys : (dictSet s₀.strategy.states instrument (st.updated midPrice)).map Prod.fst =
      s₀.strategy.states.map Prod.fst := by
    rw [keys_dictSet, if_pos hmem]
  refine ⟨hfunds, hkeys.symm ▸ h.keys_nodup, hkeys.symm ▸ h.keys, fun i st' hst' => ?_,
    fun i st' hst' => ?_, fun i hi => ?_⟩
  · rw [dictGet_dictSet] at hst'
    rw [updatesOf_append]
    split_ifs at hst' ⊢ with hi
    · obtain rfl := Option.some.inj hst'
      subst hi
      exact ⟨hinv.updated midPrice, hfollows.update hmade⟩
    · exact h.states i st' hst'
  · rw [dictGet_dictSet] at hst'
    split_ifs at hst' with hi
    · obtain rfl := Option.some.inj hst'
      rw [(updated_thresh st midPrice).1, (updated_thresh st midPrice).2]
      exact ⟨hsell, hbuy⟩
    · exact h.thresh i st' hst'
  · rw [hkeys] at hi
    rw [updatesOf_append]
    split_ifs with heq
    · obtain rfl : instrument = i := heq
      rw [← hsell, ← hbuy] at hsignal ⊢
      refine hsignal.append hfollows hmade ?_
      rcases hreturns with rfl | ⟨order, rfl, hinstrument, htype, horderPrice⟩
      · exact .inl rfl
      · exact .inr ⟨order, rfl, hinstrument, htype, horderPrice⟩
    · exact h.follows i hi

/-- **Every action keeps the invariant.** -/
theorem TradingInv.step (h : TradingInv assets instruments buyThresh sellThresh s₀)
    (hok : action.Ok) (hstep : tradingStep s₀ action = some s₁) :
    TradingInv assets instruments buyThresh sellThresh s₁ := by
  cases action with
  | priceUpdate instrument midPrice => exact h.priceUpdate hok hstep
  | call call => exact h.call hok hstep

/-- A backtest with the strategy, before its first action. -/
def startTrading (portfolio : Portfolio) (now : ℚ) (midPrices : List (Instrument × ℚ))
    (states : List (Instrument × StatePerInstrument)) : Trading :=
  ⟨⟨initial portfolio now midPrices, states⟩, []⟩

variable {portfolio : Portfolio} {params : List (String × ℚ)} {now : ℚ}
  {midPrices : List (Instrument × ℚ)} {states : List (Instrument × StatePerInstrument)}

theorem getThresh_eq_ok_iff {key : String} {thresh : ℚ} :
    getThresh params key = .ok thresh ↔ dictGet params key = some thresh := by
  unfold getThresh
  cases dictGet params key with
  | none => exact iff_of_false nofun nofun
  | some v => rw [Except.ok.injEq, Option.some.injEq]

/-- A state that was made for an instrument. -/
theorem stateInv_of_init {buySignalThresh sellSignalThresh quoteAllocation : ℚ}
    (h : StatePerInstrument.init instrument portfolio buySignalThresh sellSignalThresh
      quoteAllocation = .ok st) (hnonneg : 0 ≤ quoteAllocation) (hle : quoteAllocation ≤ 1) :
    StateInv (portfolio.wallets.map Wallet.assetInstrument) instrument st ∧ Follows st [] ∧
      st.buySignalThresh = buySignalThresh ∧ st.sellSignalThresh = sellSignalThresh := by
  simp only [StatePerInstrument.init, bind_eq_ok_iff] at h
  obtain ⟨⟨base, quote⟩, hassets, baseWallet, hbase, quoteWallet, hquote, hst⟩ := h
  obtain rfl := Except.ok.inj hst
  obtain ⟨-, rfl⟩ := Portfolio.mem_wallets_of_getWallet hbase
  obtain ⟨-, rfl⟩ := Portfolio.mem_wallets_of_getWallet hquote
  refine ⟨⟨rfl, hassets, exists_getWallet_iff.1 ⟨_, hbase⟩, exists_getWallet_iff.1 ⟨_, hquote⟩,
    hnonneg, hle⟩, ⟨rfl, by simp [lastSide], fun m => ?_, fun m => ?_⟩, rfl, rfl⟩
  · exact iff_of_false nofun not_latestExtremum_length
  · exact iff_of_false nofun not_latestExtremum_length

/-- **The invariant holds before the first action.** -/
theorem tradingInv_start (hstates : initStates portfolio params instruments = .ok states)
    (hassets : (portfolio.wallets.map Wallet.assetInstrument).Nodup)
    (hwallets : ∀ w ∈ portfolio.wallets, 0 ≤ w.balance ∧ w.locked = ∅)
    (hmid : ∀ p ∈ midPrices, 0 < p.2)
    (hbuy : dictGet params "sell_signal_thresh" = some buyThresh)
    (hsell : dictGet params "buy_signal_thresh" = some sellThresh) :
    TradingInv (portfolio.wallets.map Wallet.assetInstrument) instruments buyThresh sellThresh
      (startTrading portfolio now midPrices states) := by
  simp only [initStates, bind_eq_ok_iff] at hstates
  obtain ⟨items, hitems, hdict⟩ := hstates
  obtain rfl := Except.ok.inj hdict
  have hkeys : instruments ⊆ (dictOf items).map Prod.fst := by
    intro i hi
    obtain ⟨item, hitem, hround⟩ := exists_mem_of_mapM hitems hi
    simp only [bind_eq_ok_iff] at hround
    obtain ⟨-, -, -, -, st, -, heq⟩ := hround
    obtain rfl := Except.ok.inj heq
    exact mem_keys_dictOf (List.mem_map_of_mem hitem)
  have hnodup : ((dictOf items).map Prod.fst).Nodup :=
    nodup_keys_dictUpdate (d := []) List.nodup_nil items
  have hinit : ∀ i st, dictGet (dictOf items) i = some st →
      StateInv (portfolio.wallets.map Wallet.assetInstrument) i st ∧ Follows st [] ∧
        st.buySignalThresh = sellThresh ∧ st.sellSignalThresh = buyThresh := by
    intro i st hst
    have hmem : (i, st) ∈ items := (mem_or_mem_of_mem_dictUpdate (d := [])
      ((dictGet_eq_some_iff hnodup).1 hst)).resolve_left List.not_mem_nil
    obtain ⟨j, hj, hround⟩ := exists_of_mem_mapM hitems hmem
    simp only [bind_eq_ok_iff, getThresh_eq_ok_iff, hbuy, hsell] at hround
    obtain ⟨_, hb, _, hs, st', hst', heq⟩ := hround
    obtain ⟨rfl, rfl⟩ := Prod.mk.inj (Except.ok.inj heq)
    obtain rfl := Option.some.inj hb
    obtain rfl := Option.some.inj hs
    have hpos : (1 : ℚ) ≤ instruments.length := by
      exact_mod_cast List.length_pos_of_mem hj
    exact stateInv_of_init hst' (by positivity) (div_le_one_of_le₀ hpos (by positivity))
  refine ⟨⟨inv_initial hassets hwallets hmid, rfl⟩, hnodup, hkeys, fun i st hst => ?_,
    fun i st hst => ?_, fun i _ => followsSignal_nil⟩
  · obtain ⟨hst, hfollows, -⟩ := hinit i st hst
    exact ⟨hst, hfollows⟩
  · obtain ⟨-, -, hbuy, hsell⟩ := hinit i st hst
    exact ⟨hsell, hbuy⟩

theorem tradingInv_of_run {actions : List TradingAction} (hok : ∀ action ∈ actions, action.Ok)
    (hinv : TradingInv assets instruments buyThresh sellThresh s₀)
    (hrun : Transition.run tradingStep s₀ actions = some s₁) :
    TradingInv assets instruments buyThresh sellThresh s₁ := by
  have hall : Transition.AllSteps tradingStep (fun _ action => action.Ok) s₀ actions :=
    Transition.allSteps_of_forall hok
  exact Transition.invariant_of_allSteps (fun _ _ _ h hok hstep => TradingInv.step h hok hstep)
    hinv hall hrun

/-- **In every run the orders follow the signal**, no wallet is overdrawn and no update raises. -/
theorem followsSignal_of_run {actions : List TradingAction}
    (hstates : initStates portfolio params instruments = .ok states)
    (hassets : (portfolio.wallets.map Wallet.assetInstrument).Nodup)
    (hwallets : ∀ w ∈ portfolio.wallets, 0 ≤ w.balance ∧ w.locked = ∅)
    (hmid : ∀ p ∈ midPrices, 0 < p.2)
    (hbuy : dictGet params "sell_signal_thresh" = some buyThresh)
    (hsell : dictGet params "buy_signal_thresh" = some sellThresh)
    (hok : ∀ action ∈ actions, action.Ok)
    (hrun : Transition.run tradingStep (startTrading portfolio now midPrices states) actions =
      some s₁) :
    (∀ w ∈ s₁.strategy.backtest.portfolio.wallets, 0 ≤ w.balance) ∧
      ∀ instrument ∈ instruments,
        FollowsSignal buyThresh sellThresh (updatesOf instrument s₁.updates) := by
  have hinv := tradingInv_of_run hok
    (tradingInv_start hstates hassets hwallets hmid hbuy hsell) hrun
  exact ⟨fun w hw => (hinv.funds.1.wallets w hw).balance_nonneg,
    fun i hi => hinv.follows i (hinv.keys hi)⟩

/-- A wallet with 10000 USDT and two without coins. -/
def coinPortfolio : Portfolio where
  wallets := [⟨⟨"BINANCE", "spot", "USDT"⟩, 10000, ∅⟩, ⟨⟨"BINANCE", "spot", "BTC"⟩, 0, ∅⟩,
    ⟨⟨"BINANCE", "spot", "ETH"⟩, 0, ∅⟩]
  quote := ⟨"BINANCE", "spot", "USDT"⟩

/-- The instruments that share its quote wallet. -/
def coinInstruments : List Instrument := [demoInstrument, ⟨"BINANCE", "spot", "ETH-USDT"⟩]

/-- Thresholds of ten and of five percent. -/
def coinParams : List (String × ℚ) :=
  [("buy_signal_thresh", 1 / 20), ("sell_signal_thresh", 1 / 10)]

/-- A minimum and the order at it, which is filled, and a maximum and the order at that. -/
def coinActions : List TradingAction :=
  [.priceUpdate demoInstrument 30, .priceUpdate ⟨"BINANCE", "spot", "ETH-USDT"⟩ 7,
    .priceUpdate demoInstrument 20, .priceUpdate demoInstrument 25, .call (.stageForExecution [0]),
    .call (.next 1 [(demoInstrument, 25)]), .call .updateState, .priceUpdate demoInstrument 20]

theorem coinPortfolio_unlocked : ∀ w ∈ coinPortfolio.wallets, 0 ≤ w.balance ∧ w.locked = ∅ := by
  intro w hw
  simp only [coinPortfolio, List.mem_cons, List.not_mem_nil, or_false] at hw
  rcases hw with rfl | rfl | rfl <;> exact ⟨by norm_num, rfl⟩

theorem coinParams_thresh : dictGet coinParams "sell_signal_thresh" = some (1 / 10) ∧
    dictGet coinParams "buy_signal_thresh" = some (1 / 20) := by
  decide +kernel

theorem coinActions_ok : ∀ action ∈ coinActions, action.Ok := by
  intro action haction
  simp only [coinActions, List.mem_cons, List.not_mem_nil, or_false] at haction
  rcases haction with rfl | rfl | rfl | rfl | rfl | rfl | rfl | rfl <;>
    simp [TradingAction.Ok, Call.Ok]

theorem exists_run_coins : ∃ states s,
    initStates coinPortfolio coinParams coinInstruments = .ok states ∧
      Transition.run tradingStep (startTrading coinPortfolio 0 [] states) coinActions = some s ∧
      s.updates.map PriceUpdate.made = [none, none, none, some .buy, some .sell] := by
  have hdemo : ((initStates coinPortfolio coinParams coinInstruments).toOption.bind fun states =>
      (Transition.run tradingStep (startTrading coinPortfolio 0 [] states) coinActions).map
        fun s => s.updates.map PriceUpdate.made) =
      some [none, none, none, some .buy, some .sell] := by
    decide +kernel
  obtain ⟨states, hstates, hrun⟩ := Option.bind_eq_some_iff.1 hdemo
  obtain ⟨s, hrun, hmade⟩ := Option.map_eq_some_iff.1 hrun
  refine ⟨states, s, ?_, hrun, hmade⟩
  revert hstates
  cases initStates coinPortfolio coinParams coinInstruments with
  | error e => exact nofun
  | ok _ => exact fun h => congrArg Except.ok (Option.some.inj h)

theorem followsSignal_of_run_coins : ∃ s : Trading,
    s.updates.map PriceUpdate.made = [none, none, none, some .buy, some .sell] ∧
      ∀ instrument ∈ coinInstruments,
        FollowsSignal (1 / 10) (1 / 20) (updatesOf instrument s.updates) := by
  obtain ⟨states, s, hstates, hrun, hmade⟩ := exists_run_coins
  exact ⟨s, hmade, (followsSignal_of_run hstates (by decide +kernel)
    coinPortfolio_unlocked (by simp) coinParams_thresh.1 coinParams_thresh.2 coinActions_ok hrun).2⟩

end Backtester

end Svoe
