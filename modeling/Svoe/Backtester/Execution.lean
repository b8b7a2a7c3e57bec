import Svoe.Backtester.Portfolio
import Svoe.Transition.Basic
import Svoe.Transition.Raising

/-!
# Orders and their execution

`BaseStrategy.make_order` locks what an order needs, `ExecutionSimulator` keeps the orders that were
staged and executes them at the mid prices.  The calls of a backtest, in any order, are the actions
of a transition system; a call that raises leaves behind what it did before.

* `makeOrder_cases`, `executeOrder_cases` : all that making and executing an order can do.
-/

namespace Svoe

namespace Backtester

open Raising

/-- `OrderStatus`. -/
inductive OrderStatus where
  | pending
  | opened
  | cancelled
  | partiallyFilled
  | filled
  deriving DecidableEq, Repr

/-- `OrderType`. -/
inductive OrderType where
  | limit
  | market
  deriving DecidableEq, Repr

/-- `OrderSide`. -/
inductive OrderSide where
  | buy
  | sell
  deriving DecidableEq, Repr

/-- `Order`. -/
structure Order where
  orderId : ℕ
  orderType : OrderType
  side : OrderSide
  instrument : Instrument
  price : ℚ
  quantity : ℚ
  status : OrderStatus
  deriving DecidableEq, Repr

/-- `Trade`. -/
structure Trade where
  orderId : ℕ
  timestamp : ℚ
  instrument : Instrument
  side : OrderSide
  tradeType : OrderType
  quantity : ℚ
  price : ℚ
  commission : ℚ
  deriving DecidableEq, Repr

/-- `ExecutionSimulator._State`. -/
structure Snapshot where
  portfolio : Portfolio
  midPrices : List (Instrument × ℚ)
  timestamp : ℚ
  totalBalance : ℚ

/-- A backtest between two calls. -/
structure Backtest where
  portfolio : Portfolio
  /-- The orders made so far.  The position of an order is its id, in place of a fresh uuid. -/
  madeOrders : List Order
  /-- `ExecutionSimulator.orders`: the orders that were staged, by their ids. -/
  orders : List ℕ
  /-- `get_cur_mid_prices` of the generator. -/
  midPrices : List (Instrument × ℚ)
  /-- The clock. -/
  now : ℚ
  executedTrades : List (Instrument × List Trade)
  stateSnapshots : List Snapshot
  /-- All trades that were ever made of an order, also those that an exception lost. -/
  fills : List Trade

/-- `COMMISSION`. -/
def COMMISSION : ℚ := 5 / 1000

/-- `d[k]`. -/
def getItem {κ υ : Type} [DecidableEq κ] (d : List (κ × υ)) (k : κ) : Except PyError υ :=
  match dictGet d k with
  | some v => .ok v
  | none => .error (.key "instrument")

/-- `x / y`. -/
def divide (x y : ℚ) : Except PyError ℚ := if y = 0 then .error .zeroDivision else .ok (x / y)

/-- A part of a backtest. -/
abbrev Sim := Raising Backtest PyError

/-- `wallet.lock_from_balance` for the wallet of an asset. -/
def lockFromBalance (a : AssetInstrument) (wallet : Wallet) (orderId : ℕ) (qty : ℚ) : Sim Unit := do
  let wallet' ← lift (wallet.lockFromBalance orderId qty)
  modify fun s => { s with portfolio := s.portfolio.modifyWallet a fun _ => wallet' }

/-- `wallet.unlock` for the wallet of an asset. -/
def unlock (a : AssetInstrument) (wallet : Wallet) (orderId : ℕ) : Sim ℚ := do
  let (wallet', qty) ← lift (wallet.unlock orderId)
  modify fun s => { s with portfolio := s.portfolio.modifyWallet a fun _ => wallet' }
  return qty

/-- `wallet.deposit` for the wallet of an asset. -/
def deposit (a : AssetInstrument) (qty : ℚ) : Sim Unit :=
  modify fun s => { s with portfolio := s.portfolio.modifyWallet a fun w => w.deposit qty }

/-- `BaseStrategy.make_order`. -/
def makeOrder (side : OrderSide) (orderType : OrderType) (instrument : Instrument)
    (qty price : ℚ) : Sim Order := do
  let s ← get
  let orderId := s.madeOrders.length
  let (baseInstr, quoteInstr) ← lift (toAssetInstruments instrument)
  let baseWallet ← lift (s.portfolio.getWallet baseInstr)
  let quoteWallet ← lift (s.portfolio.getWallet quoteInstr)
  match side with
  | .buy => lockFromBalance quoteInstr quoteWallet orderId (price * qty)
  | .sell => lockFromBalance baseInstr baseWallet orderId qty
  let order : Order := ⟨orderId, orderType, side, instrument, price, qty, .opened⟩
  modify fun s => { s with madeOrders := s.madeOrders ++ [order] }
  return order

/-- The end of `_execute_order`: the order is filled. -/
def fill (order : Order) (trade : Trade) : Sim Trade := do
  modify fun s =>
    { s with
      madeOrders := s.madeOrders.set order.orderId { order with status := .filled }
      fills := s.fills ++ [trade] }
  return trade

/-- `_execute_order`. -/
def executeOrder (order : Order) : Sim Trade := do
  let s ← get
  let price ← lift (getItem s.midPrices order.instrument)
  let (baseInstr, quoteInstr) ← lift (toAssetInstruments order.instrument)
  match order.side with
  | .buy => do
    let walletFrom ← lift (s.portfolio.getWallet quoteInstr)
    let _ ← lift (s.portfolio.getWallet baseInstr)
    let quoteQty ← unlock quoteInstr walletFrom order.orderId
    let quotient ← lift (divide quoteQty price)
    let commission := quotient * COMMISSION
    let baseQty := quotient - commission
    deposit baseInstr baseQty
    fill order ⟨order.orderId, s.now, order.instrument, order.side, order.orderType, baseQty,
      price, commission⟩
  | .sell => do
    let walletFrom ← lift (s.portfolio.getWallet baseInstr)
    let _ ← lift (s.portfolio.getWallet quoteInstr)
    let baseQty ← unlock baseInstr walletFrom order.orderId
    let commission := baseQty * price * COMMISSION
    let quoteQty := baseQty * price - commission
    deposit quoteInstr quoteQty
    fill order ⟨order.orderId, s.now, order.instrument, order.side, order.orderType, baseQty,
      price, commission⟩

/-- The price condition of a limit order. -/
def limitReached (order : Order) (midPrice : ℚ) : Bool :=
  match order.side with
  -- execute only if it is below mid price
  | .buy => order.price ≤ midPrice
  -- execute only if it is above mid price
  | .sell => order.price ≥ midPrice

/-- One round of `_execute_staged_orders`. -/
def executeStagedOrder (order : Order) : Sim (List Trade) := do
  if order.status = .cancelled ∨ order.status = .filled then return []
  match order.orderType with
  | .market => return [← executeOrder order]
  | .limit => do
    let s ← get
    match dictGet s.midPrices order.instrument with
    | none =>
      lift (.error (.value ("Instrument " ++ order.instrument.text ++ " not in mid_prices")))
    | some midPrice =>
      if limitReached order midPrice then return [← executeOrder order] else return []

theorem not_closed_of_opened {order : Order} (h : order.status = .opened) :
    ¬ (order.status = .cancelled ∨ order.status = .filled) := by
  rw [h]
  rintro (h | h) <;> cases h

/-- `_execute_staged_orders`. -/
def executeStagedOrders : List ℕ → Sim (List Trade)
  | [] => return []
  | orderId :: orders => do
    let s ← get
    match s.madeOrders[orderId]? with
    | none => executeStagedOrders orders
    | some order => do
      let trades ← executeStagedOrder order
      let res ← executeStagedOrders orders
      return trades ++ res

/-- The total balance that `_record_state_snapshot` computes. -/
def snapshotBalance (p : Portfolio) (midPrices : List (Instrument × ℚ)) : Except PyError ℚ := do
  let quoteWallet ← p.getWallet p.quote
  p.wallets.foldlM (fun totalBalance wallet => do
    if wallet.assetInstrument = p.quote then return totalBalance
    let instrument ← fromAssetInstruments wallet.assetInstrument p.quote
    match dictGet midPrices instrument with
    | none => return totalBalance
    | some midPrice => do
      let wallet ← p.getWallet wallet.assetInstrument
      return totalBalance + wallet.totalBalance * midPrice) quoteWallet.totalBalance

/-- `_record_state_snapshot`. -/
def recordStateSnapshot : Sim Unit := do
  let s ← get
  let totalBalance ← lift (snapshotBalance s.portfolio s.midPrices)
  modify fun s =>
    { s with
      stateSnapshots := s.stateSnapshots ++ [⟨s.portfolio, s.midPrices, s.now, totalBalance⟩] }

/-- `stage_for_execution`. -/
def stageForExecution (orders : List ℕ) : Sim Unit := do
  if orders ≠ [] then
    modify fun s => { s with orders := s.orders ++ orders }
    recordStateSnapshot

/-- `update_state`. -/
def updateState : Sim Unit := do
  let s ← get
  let trades ← executeStagedOrders s.orders
  if trades ≠ [] then
    modify fun s =>
      { s with
        executedTrades := trades.foldl (fun d trade =>
          dictSet d trade.instrument ((dictGet d trade.instrument).getD [] ++ [trade]))
          s.executedTrades }
    recordStateSnapshot

/-- The calls of a backtest.  `next` is the generator's: time goes on and the mid prices change. -/
inductive Call where
  | makeOrder (side : OrderSide) (orderType : OrderType) (instrument : Instrument) (qty price : ℚ)
  | stageForExecution (orders : List ℕ)
  | updateState
  | next (now : ℚ) (midPrices : List (Instrument × ℚ))
  deriving DecidableEq

/-- A call of a backtest, whether it raises or not.  Only orders that were made can be staged. -/
def step (s : Backtest) : Call → Option Backtest
  | .makeOrder side orderType instrument qty price =>
    some (makeOrder side orderType instrument qty price s).2
  | .stageForExecution orders =>
    if ∀ id ∈ orders, id < s.madeOrders.length then some (stageForExecution orders s).2 else none
  | .updateState => some (updateState s).2
  | .next now midPrices => some { s with now := now, midPrices := midPrices }

/-- A backtest before its first call. -/
def initial (portfolio : Portfolio) (now : ℚ) (midPrices : List (Instrument × ℚ)) : Backtest :=
  ⟨portfolio, [], [], midPrices, now, [], [], []⟩

/-! ### What a call can do -/

/-- The asset an order gives away. -/
def Order.assetFrom (order : Order) : Except PyError AssetInstrument :=
  (toAssetInstruments order.instrument).map fun (base, quote) =>
    match order.side with
    | .buy => quote
    | .sell => base

/-- The asset an order receives. -/
def Order.assetTo (order : Order) : Except PyError AssetInstrument :=
  (toAssetInstruments order.instrument).map fun (base, quote) =>
    match order.side with
    | .buy => base
    | .sell => quote

/-- The amount an order locks. -/
def Order.lockedQty (order : Order) : ℚ :=
  match order.side with
  | .buy => order.price * order.quantity
  | .sell => order.quantity

/-- What the other side of a locked amount is worth at a price. -/
def converted (side : OrderSide) (qty price : ℚ) : ℚ :=
  match side with
  | .buy => qty / price
  | .sell => qty * price

/-- What an order receives for the amount it locked. -/
def received (side : OrderSide) (qty price : ℚ) : ℚ :=
  converted side qty price - converted side qty price * COMMISSION

/-- The trade of an order. -/
def tradeOf (order : Order) (now price qty : ℚ) : Trade where
  orderId := order.orderId
  timestamp := now
  instrument := order.instrument
  side := order.side
  tradeType := order.orderType
  quantity := match order.side with
    | .buy => received .buy qty price
    | .sell => qty
  price := price
  commission := converted order.side qty price * COMMISSION

/-- The wallet after an amount was locked. -/
def Wallet.lock (w : Wallet) (orderId : ℕ) (qty : ℚ) : Wallet :=
  { w with locked := w.locked.insert orderId qty, balance := w.balance - qty }

/-- The wallet after the amount of an order was taken out of it. -/
def Wallet.release (w : Wallet) (orderId : ℕ) : Wallet :=
  { w with locked := w.locked.erase orderId }

/-- What `make_order` needs to make an order. -/
structure Makes (s : Backtest) (order : Order) (a : AssetInstrument) (wallet : Wallet) : Prop where
  orderId : order.orderId = s.madeOrders.length
  status : order.status = .opened
  assetFrom : order.assetFrom = .ok a
  walletFrom : s.portfolio.getWallet a = .ok wallet
  walletTo : ∃ a' w, order.assetTo = .ok a' ∧ s.portfolio.getWallet a' = .ok w
  enough : order.lockedQty ≤ wallet.balance
  notLocked : order.orderId ∉ wallet.locked

/-- The backtest after an order was made. -/
def Backtest.made (s : Backtest) (order : Order) (a : AssetInstrument) (wallet : Wallet) :
    Backtest :=
  { s with
    portfolio := s.portfolio.modifyWallet a fun _ => wallet.lock order.orderId order.lockedQty
    madeOrders := s.madeOrders ++ [order] }

/-- What `_execute_order` needs to fill an order. -/
structure Fills (s : Backtest) (order : Order) (price qty : ℚ) (a a' : AssetInstrument)
    (wallet : Wallet) : Prop where
  price : getItem s.midPrices order.instrument = .ok price
  assetFrom : order.assetFrom = .ok a
  assetTo : order.assetTo = .ok a'
  walletFrom : s.portfolio.getWallet a = .ok wallet
  walletTo : ∃ w, s.portfolio.getWallet a' = .ok w
  locked : wallet.locked.lookup order.orderId = some qty

/-- The backtest after an order was filled. -/
def Backtest.filled (s : Backtest) (order : Order) (price qty : ℚ) (a a' : AssetInstrument)
    (wallet : Wallet) : Backtest :=
  { s with
    portfolio := (s.portfolio.modifyWallet a fun _ => wallet.release order.orderId).modifyWallet a'
      fun w => w.deposit (received order.side qty price)
    madeOrders := s.madeOrders.set order.orderId { order with status := .filled }
    fills := s.fills ++ [tradeOf order s.now price qty] }

variable {s : Backtest} {order : Order} {price qty : ℚ} {a a' : AssetInstrument} {wallet : Wallet}

theorem dictGet_of_getItem {κ υ : Type} [DecidableEq κ] {d : List (κ × υ)} {k : κ} {v : υ}
    (h : getItem d k = .ok v) : dictGet d k = some v := by
  unfold getItem at h
  cases hd : dictGet d k with
  | none => rw [hd] at h; cases h
  | some w =>
    rw [hd] at h
    exact congrArg some (Except.ok.inj h)

theorem unlock_of_ok {wallet' : Wallet} (h : wallet.unlock order.orderId = .ok (wallet', qty)) :
    unlock a wallet order.orderId s =
      (.ok qty, { s with portfolio := s.portfolio.modifyWallet a fun _ => wallet' }) := by
  rw [unlock, h]
  rfl

theorem unlock_of_error {e : PyError} (h : wallet.unlock order.orderId = .error e) :
    unlock a wallet order.orderId s = (.error e, s) := by
  rw [unlock, h]
  rfl

/-- **Filling an order** that has what it needs. -/
theorem executeOrder_of_fills (h : Fills s order price qty a a' wallet)
    (hprice : order.side = .buy → price ≠ 0) :
    executeOrder order s =
      (.ok (tradeOf order s.now price qty), s.filled order price qty a a' wallet) := by
  obtain ⟨hitem, hfrom, hto, hwallet, ⟨w, hw⟩, hlocked⟩ := h
  obtain ⟨⟨base, quote⟩, hassets, rfl⟩ := map_eq_ok_iff.1 hfrom
  obtain ⟨_, hassets', rfl⟩ := map_eq_ok_iff.1 hto
  obtain rfl := Except.ok.inj (hassets.symm.trans hassets')
  have hunlock : wallet.unlock order.orderId = .ok (wallet.release order.orderId, qty) :=
    Wallet.unlock_eq_ok_iff.2 ⟨hlocked, rfl⟩
  rw [executeOrder, get_bind, hitem, lift_ok_bind, hassets, lift_ok_bind]
  rcases hside : order.side with _ | _
  · simp only [hside] at hwallet hw ⊢
    rw [hwallet, lift_ok_bind, hw, lift_ok_bind, bind_of_ok (unlock_of_ok hunlock), divide,
      if_neg (hprice hside), lift_ok_bind, deposit, modify_bind, fill, modify_bind, pure_apply]
    simp only [tradeOf, Backtest.filled, received, converted, hside]
  · simp only [hside] at hwallet hw ⊢
    rw [hwallet, lift_ok_bind, hw, lift_ok_bind, bind_of_ok (unlock_of_ok hunlock), deposit,
      modify_bind, fill, modify_bind, pure_apply]
    simp only [tradeOf, Backtest.filled, received, converted, hside]

/-- **All that executing an order can do**: it raises and changes nothing, or the order has what it
needs to be filled. -/
theorem executeOrder_cases (s : Backtest) (order : Order) :
    (∃ e, executeOrder order s = (.error e, s)) ∨
      ∃ price qty a a' wallet, Fills s order price qty a a' wallet := by
  rw [executeOrder, get_bind]
  cases hitem : getItem s.midPrices order.instrument with
  | error e => exact .inl ⟨e, lift_error_bind e⟩
  | ok price =>
    rw [lift_ok_bind]
    cases hassets : toAssetInstruments order.instrument with
    | error e => exact .inl ⟨e, lift_error_bind e⟩
    | ok assets =>
      obtain ⟨base, quote⟩ := assets
      rw [lift_ok_bind]
      have hfrom : ∀ a, (match order.side with | .buy => quote | .sell => base) = a →
          order.assetFrom = .ok a := by
        rintro _ rfl
        exact map_eq_ok_iff.2 ⟨_, hassets, rfl⟩
      have hto : ∀ a, (match order.side with | .buy => base | .sell => quote) = a →
          order.assetTo = .ok a := by
        rintro _ rfl
        exact map_eq_ok_iff.2 ⟨_, hassets, rfl⟩
      -- both sides of an order read the wallet that gives before the one that receives
      have hwallets : ∀ (a a' : AssetInstrument) (f : Wallet → ℚ → Sim Trade),
          order.assetFrom = .ok a → order.assetTo = .ok a' →
          (∃ e, (do
              let walletFrom ← lift (s.portfolio.getWallet a)
              let _ ← lift (s.portfolio.getWallet a')
              let qty ← unlock a walletFrom order.orderId
              f walletFrom qty : Sim Trade) s = (.error e, s)) ∨
            ∃ price qty a a' wallet, Fills s order price qty a a' wallet := by
        intro a a' f ha ha'
        cases hwallet : s.portfolio.getWallet a with
        | error e => exact .inl ⟨e, lift_error_bind e⟩
        | ok wallet =>
          rw [lift_ok_bind]
          cases hw : s.portfolio.getWallet a' with
          | error e => exact .inl ⟨e, lift_error_bind e⟩
          | ok w =>
            rw [lift_ok_bind]
            cases hlocked : wallet.unlock order.orderId with
            | error e => exact .inl ⟨e, bind_of_error (unlock_of_error hlocked)⟩
            | ok p =>
              exact .inr ⟨price, p.2, a, a', wallet, hitem, ha, ha', hwallet, ⟨w, hw⟩,
                (Wallet.unlock_eq_ok_iff.1 hlocked).1⟩
      rcases hside : order.side with _ | _
      · rw [hside] at hfrom hto
        exact hwallets quote base _ (hfrom _ rfl) (hto _ rfl)
      · rw [hside] at hfrom hto
        exact hwallets base quote _ (hfrom _ rfl) (hto _ rfl)

/-- **All that making an order can do**: it raises and changes nothing, or the order is made. -/
theorem makeOrder_cases (side : OrderSide) (orderType : OrderType) (instrument : Instrument)
    (qty price : ℚ) (s : Backtest) :
    (∃ e, makeOrder side orderType instrument qty price s = (.error e, s)) ∨
      ∃ a wallet,
        Makes s ⟨s.madeOrders.length, orderType, side, instrument, price, qty, .opened⟩ a wallet ∧
        makeOrder side orderType instrument qty price s =
          (.ok ⟨s.madeOrders.length, orderType, side, instrument, price, qty, .opened⟩,
            s.made ⟨s.madeOrders.length, orderType, side, instrument, price, qty, .opened⟩ a
              wallet) := by
  rw [makeOrder, get_bind]
  cases hassets : toAssetInstruments instrument with
  | error e => exact .inl ⟨e, lift_error_bind e⟩
  | ok assets =>
    obtain ⟨base, quote⟩ := assets
    rw [lift_ok_bind]
    dsimp only
    cases hbase : s.portfolio.getWallet base with
    | error e => exact .inl ⟨e, lift_error_bind e⟩
    | ok baseWallet =>
      rw [lift_ok_bind]
      cases hquote : s.portfolio.getWallet quote with
      | error e => exact .inl ⟨e, lift_error_bind e⟩
      | ok quoteWallet =>
        rw [lift_ok_bind]
        -- what is left is to lock, and to keep the order
        have hlock : ∀ (a a' : AssetInstrument) (wallet w' : Wallet) (order : Order),
            order.orderId = s.madeOrders.length → order.status = .opened →
            order.assetFrom = .ok a → s.portfolio.getWallet a = .ok wallet →
            order.assetTo = .ok a' → s.portfolio.getWallet a' = .ok w' →
            (∃ e, (do
                lockFromBalance a wallet order.orderId order.lockedQty
                modify fun s => { s with madeOrders := s.madeOrders ++ [order] }
                return order : Sim Order) s = (.error e, s)) ∨
              Makes s order a wallet ∧ (do
                lockFromBalance a wallet order.orderId order.lockedQty
                modify fun s => { s with madeOrders := s.madeOrders ++ [order] }
                return order : Sim Order) s = (.ok order, s.made order a wallet) := by
          intro a a' wallet w' order hid hstatus ha hwallet ha' hw'
          cases hl : wallet.lockFromBalance order.orderId order.lockedQty with
          | error e => exact .inl ⟨e, bind_of_error (by rw [lockFromBalance, hl]; rfl)⟩
          | ok wallet' =>
            obtain ⟨henough, hnot, rfl⟩ := Wallet.lockFromBalance_eq_ok_iff.1 hl
            refine .inr ⟨⟨hid, hstatus, ha, hwallet, ⟨a', w', ha', hw'⟩, henough, hnot⟩, ?_⟩
            rw [lockFromBalance, hl]
            rfl
        cases side with
        | buy =>
          exact (hlock quote base quoteWallet baseWallet
            ⟨s.madeOrders.length, orderType, .buy, instrument, price, qty, .opened⟩ rfl rfl
            (map_eq_ok_iff.2 ⟨_, hassets, rfl⟩) hquote (map_eq_ok_iff.2 ⟨_, hassets, rfl⟩)
            hbase).imp_right fun h => ⟨_, _, h⟩
        | sell =>
          exact (hlock base quote baseWallet quoteWallet
            ⟨s.madeOrders.length, orderType, .sell, instrument, price, qty, .opened⟩ rfl rfl
            (map_eq_ok_iff.2 ⟨_, hassets, rfl⟩) hbase (map_eq_ok_iff.2 ⟨_, hassets, rfl⟩)
            hquote).imp_right fun h => ⟨_, _, h⟩

theorem lockFromBalance_of_ok {orderId : ℕ} {wallet' : Wallet}
    (h : wallet.lockFromBalance orderId qty = .ok wallet') :
    lockFromBalance a wallet orderId qty s =
      (.ok (), { s with portfolio := s.portfolio.modifyWallet a fun _ => wallet' }) := by
  rw [lockFromBalance, h]
  rfl

/-- **Making an order** that has what it needs. -/
theorem makeOrder_of_makes {side : OrderSide} {orderType : OrderType} {instrument : Instrument}
    (h : Makes s ⟨s.madeOrders.length, orderType, side, instrument, price, qty, .opened⟩ a wallet) :
    makeOrder side orderType instrument qty price s =
      (.ok ⟨s.madeOrders.length, orderType, side, instrument, price, qty, .opened⟩,
        s.made ⟨s.madeOrders.length, orderType, side, instrument, price, qty, .opened⟩ a wallet) := by
  obtain ⟨-, -, hfrom, hwallet, ⟨a', w', hto, hw'⟩, henough, hnot⟩ := h
  obtain ⟨⟨base, quote⟩, hassets, rfl⟩ := map_eq_ok_iff.1 hfrom
  obtain ⟨_, hassets', rfl⟩ := map_eq_ok_iff.1 hto
  obtain rfl := Except.ok.inj (hassets.symm.trans hassets')
  have hassets : toAssetInstruments instrument = .ok (base, quote) := hassets
  have hlock := Wallet.lockFromBalance_eq_ok_iff.2 ⟨henough, hnot, rfl⟩
  rw [makeOrder, get_bind, hassets, lift_ok_bind]
  cases side with
  | buy =>
    have hbase : s.portfolio.getWallet base = .ok w' := hw'
    have hquote : s.portfolio.getWallet quote = .ok wallet := hwallet
    dsimp only
    rw [hbase, lift_ok_bind, hquote, lift_ok_bind]
    exact bind_of_ok (lockFromBalance_of_ok hlock)
  | sell =>
    have hbase : s.portfolio.getWallet base = .ok wallet := hwallet
    have hquote : s.portfolio.getWallet quote = .ok w' := hw'
    dsimp only
    rw [hbase, lift_ok_bind, hquote, lift_ok_bind]
    exact bind_of_ok (lockFromBalance_of_ok hlock)

end Backtester

end Svoe
