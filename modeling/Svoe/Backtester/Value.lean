import Svoe.Backtester.WalletInvariant
import Mathlib.Algebra.Order.BigOperators.Group.List
import Mathlib.Tactic.FieldSimp

/-!
# Trading costs the commission and nothing else

The value of a portfolio is what `_record_state_snapshot` adds up: the quote total, and the base
totals at their mid prices.

* `snapshotBalance_eq_value` : a snapshot records the value.
* `value_modifyWallet` : a change of one wallet changes the value by its price.
* `value_filled` : a fill costs the commission.
* `value_of_run` : between price changes the value falls by the commissions.
-/

namespace Svoe

namespace Backtester

open Raising

/-! ### The value of a portfolio -/

/-- The price of an asset in the quote asset; an asset without a mid price counts nothing. -/
def priceOf (midPrices : List (Instrument × ℚ)) (quote a : AssetInstrument) : ℚ :=
  if a = quote then 1
  else match fromAssetInstruments a quote with
    | .ok instrument => (dictGet midPrices instrument).getD 0
    | .error _ => 0

/-- The value of a portfolio at some mid prices. -/
def value (p : Portfolio) (midPrices : List (Instrument × ℚ)) : ℚ :=
  (p.wallets.map fun w => w.totalBalance * priceOf midPrices p.quote w.assetInstrument).sum

variable {p : Portfolio} {midPrices : List (Instrument × ℚ)}

/-- **A change of one wallet** changes the value by its price. -/
theorem value_modifyWallet {a : AssetInstrument} {w : Wallet} {f : Wallet → Wallet}
    (h : p.getWallet a = .ok w) (hf : ∀ w, (f w).assetInstrument = w.assetInstrument) :
    value (p.modifyWallet a f) midPrices =
      value p midPrices + ((f w).totalBalance - w.totalBalance) * priceOf midPrices p.quote a := by
  obtain ⟨before, behind, hwallets, ha, hother⟩ := Portfolio.exists_append_of_getWallet h
  have hsame : ∀ ws : List Wallet, (∀ w' ∈ ws, w'.assetInstrument ≠ a) →
      ws.map (fun w => if w.assetInstrument = a then f w else w) = ws := fun ws hws => by
    refine (List.map_congr_left fun w' hw' => ?_).trans (List.map_id ws)
    exact if_neg (hws w' hw')
  simp only [value, Portfolio.modifyWallet, hwallets, List.map_append, List.map_cons, if_true,
    hsame before fun w' hw' => hother w' (List.mem_append_left _ hw'),
    hsame behind fun w' hw' => hother w' (List.mem_append_right _ hw'), List.sum_append,
    List.sum_cons, hf, ha]
  ring

/-- What the wallets other than the quote wallet add to a snapshot. -/
theorem foldlM_snapshotBalance (hassets : (p.wallets.map Wallet.assetInstrument).Nodup)
    {ws : List Wallet} (hws : ∀ w ∈ ws, w ∈ p.wallets) {start total : ℚ}
    (h : ws.foldlM (fun totalBalance wallet => do
      if wallet.assetInstrument = p.quote then return totalBalance
      let instrument ← fromAssetInstruments wallet.assetInstrument p.quote
      match dictGet midPrices instrument with
      | none => return totalBalance
      | some midPrice => do
        let wallet ← p.getWallet wallet.assetInstrument
        return totalBalance + wallet.totalBalance * midPrice) start =
          (.ok total : Except PyError ℚ)) :
    total = start + (ws.map fun w => if w.assetInstrument = p.quote then 0
      else w.totalBalance * priceOf midPrices p.quote w.assetInstrument).sum := by
  induction ws generalizing start with
  | nil =>
    obtain rfl := Except.ok.inj h
    simp
  | cons w ws ih =>
    have hrest := fun w' hw' => hws w' (List.mem_cons_of_mem w hw')
    rw [List.foldlM_cons, bind_eq_ok_iff] at h
    obtain ⟨next, hnext, h⟩ := h
    rw [ih hrest h, List.map_cons, List.sum_cons, ← add_assoc]
    congr 1
    by_cases hquote : w.assetInstrument = p.quote
    · rw [if_pos hquote] at hnext ⊢
      obtain rfl := Except.ok.inj hnext
      rw [add_zero]
    · rw [if_neg hquote] at hnext ⊢
      rw [bind_eq_ok_iff] at hnext
      obtain ⟨instrument, hinstrument, hnext⟩ := hnext
      rw [priceOf, if_neg hquote, hinstrument]
      cases hprice : dictGet midPrices instrument with
      | none =>
        rw [hprice] at hnext
        obtain rfl := Except.ok.inj hnext
        simp [hprice]
      | some midPrice =>
        rw [hprice] at hnext
        dsimp only at hnext
        rw [Portfolio.getWallet_eq_ok hassets (hws w List.mem_cons_self)] at hnext
        obtain rfl := Except.ok.inj hnext
        simp [hprice]

/-- **A snapshot records the value.** -/
theorem snapshotBalance_eq_value (hassets : (p.wallets.map Wallet.assetInstrument).Nodup)
    {total : ℚ} (h : snapshotBalance p midPrices = .ok total) : total = value p midPrices := by
  rw [snapshotBalance, bind_eq_ok_iff] at h
  obtain ⟨quoteWallet, hquote, h⟩ := h
  rw [foldlM_snapshotBalance hassets (fun _ => id) h]
  obtain ⟨before, behind, hwallets, ha, hother⟩ := Portfolio.exists_append_of_getWallet hquote
  have hsame : ∀ ws : List Wallet, (∀ w ∈ ws, w.assetInstrument ≠ p.quote) →
      (ws.map fun w => if w.assetInstrument = p.quote then 0
        else w.totalBalance * priceOf midPrices p.quote w.assetInstrument) =
      ws.map fun w => w.totalBalance * priceOf midPrices p.quote w.assetInstrument :=
    fun ws hws => List.map_congr_left fun w hw => if_neg (hws w hw)
  have hone : priceOf midPrices p.quote p.quote = 1 := if_pos rfl
  simp only [value, hwallets, List.map_append, List.map_cons, List.sum_append, List.sum_cons, ha,
    if_true, hone, hsame before fun w hw => hother w (List.mem_append_left _ hw),
    hsame behind fun w hw => hother w (List.mem_append_right _ hw)]
  ring

/-! ### Making and staging -/

/-- The assets and totals of the wallets. -/
def totals (p : Portfolio) : List (AssetInstrument × ℚ) :=
  p.wallets.map fun w => (w.assetInstrument, w.totalBalance)

variable {s s' : Backtest} {order : Order} {price qty : ℚ} {a a' : AssetInstrument}
  {wallet : Wallet}

/-- Locking leaves every total as it is. -/
theorem totals_made (h : Makes s order a wallet) :
    totals (s.made order a wallet).portfolio = totals s.portfolio := by
  rw [totals, totals, made_portfolio h, Portfolio.modifyWallet, List.map_map]
  refine List.map_congr_left fun w hw => ?_
  simp only [Function.comp_apply]
  split_ifs with ha
  · obtain rfl := Portfolio.eq_of_getWallet h.walletFrom hw ha
    have htotal : (w.lock order.orderId order.lockedQty).totalBalance = w.totalBalance :=
      Wallet.totalBalance_lock (Wallet.lockFromBalance_eq_ok_iff.2 ⟨h.enough, h.notLocked, rfl⟩)
    exact Prod.ext rfl htotal
  · rfl

/-- The value is one of the totals. -/
theorem value_eq_of_totals_eq {p' : Portfolio} (h : totals p' = totals p)
    (hquote : p'.quote = p.quote) : value p' midPrices = value p midPrices := by
  have hvalue : ∀ p : Portfolio, value p midPrices =
      ((totals p).map fun q => q.2 * priceOf midPrices p.quote q.1).sum := fun p => by
    rw [value, totals, List.map_map]
    rfl
  rw [hvalue, hvalue, h, hquote]

/-! ### Filling -/

/-- A pair with the given quote asset: the symbol is put together of its two assets. -/
def IsPair (quote : AssetInstrument) (instrument : Instrument) : Prop :=
  ∃ base, base ≠ quote ∧ toAssetInstruments instrument = .ok (base, quote) ∧
    fromAssetInstruments base quote = .ok instrument

/-- A symbol that is put together of two asset names is that of a pair. -/
theorem isPair_compose {quote : AssetInstrument} (base : String) (hne : base ≠ quote.asset)
    (hbase : '-' ∉ base.toList) (hquote : '-' ∉ quote.asset.toList) :
    IsPair quote
      ⟨quote.exchange, quote.instrumentType, composeSymbol base quote.asset⟩ := by
  have hsplit : (composeSymbol base quote.asset).toList.splitOn '-' =
      [base.toList, quote.asset.toList] := by
    have h : (['-'].intercalate [base.toList, quote.asset.toList]).splitOn '-' =
        [base.toList, quote.asset.toList] := by
      refine List.splitOn_intercalate '-' (fun l hl => ?_) (by simp)
      rcases List.mem_pair.1 hl with rfl | rfl
      · exact hbase
      · exact hquote
    rw [← h]
    simp [composeSymbol, List.intercalate]
  refine ⟨⟨quote.exchange, quote.instrumentType, base⟩,
    fun h => hne (congrArg AssetInstrument.asset h), ?_, ?_⟩
  · simp [toAssetInstruments, parseSymbol, hsplit, Except.map]
  · simp [fromAssetInstruments]

/-- What the locked amount of an order is worth at a price. -/
def Order.lockedValue (order : Order) (price : ℚ) : ℚ :=
  match order.side with
  | .buy => order.lockedQty
  | .sell => order.lockedQty * price

/-- The amount that is locked is the one the order locked. -/
theorem Inv.qty_eq (hinv : Inv s) (hcur : s.madeOrders[order.orderId]? = some order)
    (h : Fills s order price qty a a' wallet) : qty = order.lockedQty := by
  obtain ⟨-, o, ho, -, -, hqty⟩ :=
    (hinv.wallets wallet (Portfolio.mem_wallets_of_getWallet h.walletFrom).1).locked _ _ h.locked
  obtain rfl := Option.some.inj (hcur.symm.trans ho)
  exact hqty

/-- A fill takes the amount out of one wallet and puts the proceeds into another. -/
theorem value_filled_eq (h : Fills s order price qty a a' wallet) (hne : a ≠ a') :
    value (s.filled order price qty a a' wallet).portfolio midPrices =
      value s.portfolio midPrices - qty * priceOf midPrices s.portfolio.quote a +
        received order.side qty price * priceOf midPrices s.portfolio.quote a' := by
  obtain ⟨w, hw⟩ := h.walletTo
  have hw' : (s.portfolio.modifyWallet a fun w => w.release order.orderId).getWallet a' =
      .ok w := by
    rw [Portfolio.getWallet_modifyWallet_of_ne (f := fun w => w.release order.orderId) hne
      fun _ => rfl, hw]
  have hrelease : (wallet.release order.orderId).totalBalance = wallet.totalBalance - qty :=
    Wallet.totalBalance_unlock (Wallet.unlock_eq_ok_iff.2 ⟨h.locked, rfl⟩)
  rw [filled_portfolio h,
    value_modifyWallet (f := fun w => w.deposit (received order.side qty price)) hw' fun _ => rfl,
    value_modifyWallet (f := fun w => w.release order.orderId) h.walletFrom fun _ => rfl,
    Wallet.totalBalance_deposit, hrelease]
  simp only [Portfolio.modifyWallet]
  ring

/-- **A fill costs the commission** on what the order had locked. -/
theorem value_filled (hinv : Inv s) (hcur : s.madeOrders[order.orderId]? = some order)
    (hpair : IsPair s.portfolio.quote order.instrument)
    (h : Fills s order price qty a a' wallet) :
    value (s.filled order price qty a a' wallet).portfolio s.midPrices =
      value s.portfolio s.midPrices - COMMISSION * order.lockedValue price := by
  obtain ⟨base, hbase, hassets, hinstrument⟩ := hpair
  have hprice := hinv.price_pos h
  obtain rfl := hinv.qty_eq hcur h
  have hquotePrice : priceOf s.midPrices s.portfolio.quote s.portfolio.quote = 1 := if_pos rfl
  have hbasePrice : priceOf s.midPrices s.portfolio.quote base = price := by
    rw [priceOf, if_neg hbase, hinstrument]
    simp [dictGet_of_getItem h.price]
  have hfrom := h.assetFrom
  have hto := h.assetTo
  rw [Order.assetFrom, hassets] at hfrom
  rw [Order.assetTo, hassets] at hto
  rw [Order.lockedValue]
  rcases hside : order.side with _ | _
  · -- quote is given, base is received
    rw [hside] at hfrom hto
    obtain rfl := Except.ok.inj hfrom
    obtain rfl := Except.ok.inj hto
    rw [value_filled_eq h (Ne.symm hbase), hquotePrice, hbasePrice, hside, received, converted]
    field_simp
    ring
  · rw [hside] at hfrom hto
    obtain rfl := Except.ok.inj hfrom
    obtain rfl := Except.ok.inj hto
    rw [value_filled_eq h hbase, hquotePrice, hbasePrice, hside, received, converted]
    ring

/-! ### Runs -/

/-- What the commission of a trade is worth in the quote asset.  It is charged in the asset that the
order receives. -/
def Trade.commissionValue (trade : Trade) : ℚ :=
  match trade.side with
  | .buy => trade.commission * trade.price
  | .sell => trade.commission

theorem commissionValue_tradeOf {now : ℚ} (hprice : price ≠ 0) :
    (tradeOf order now price order.lockedQty).commissionValue =
      COMMISSION * order.lockedValue price := by
  rw [Trade.commissionValue, Order.lockedValue]
  cases hside : order.side
  · simp only [tradeOf, hside, converted]
    field_simp
  · simp only [tradeOf, hside, converted]
    ring

/-- A trade is one of an order, and its commission is that part of what the order had locked. -/
def PaysCommission (madeOrders : List Order) (trade : Trade) : Prop :=
  ∃ order, madeOrders[trade.orderId]? = some order ∧
    trade.commissionValue = COMMISSION * order.lockedValue trade.price ∧ 0 ≤ trade.commissionValue

/-- All orders trade pairs with the quote asset of the portfolio. -/
structure Quoted (quote : AssetInstrument) (s : Backtest) : Prop where
  inv : Inv s
  quote_eq : s.portfolio.quote = quote
  pairs : ∀ (id : ℕ) (order : Order), s.madeOrders[id]? = some order →
    IsPair quote order.instrument

/-- What was lost since `s₀` are the commissions of the trades since then. -/
structure Ledger (s₀ s : Backtest) : Prop extends Quoted s₀.portfolio.quote s where
  midPrices : s.midPrices = s₀.midPrices
  trades : ∃ trades, s.fills = s₀.fills ++ trades ∧
    value s.portfolio s.midPrices =
      value s₀.portfolio s₀.midPrices - (trades.map Trade.commissionValue).sum ∧
    ∀ trade ∈ trades, PaysCommission s.madeOrders trade

variable {quote : AssetInstrument} {s₀ : Backtest}

theorem accounting_quoted : Accounting (Quoted quote) where
  inv h := h.inv
  congr h hportfolio hmade hfills hmid :=
    ⟨accounting_inv.congr h.inv hportfolio hmade hfills hmid, by rw [hportfolio, h.quote_eq],
      hmade ▸ h.pairs⟩
  filled h hcur hopen hf := by
    refine ⟨h.inv.filled hcur hopen hf, ?_, fun id o ho => ?_⟩
    · rw [filled_portfolio hf]
      exact h.quote_eq
    · rcases (getElem?_filled_iff hcur).1 ho with ⟨-, ho⟩ | ⟨-, rfl⟩
      · exact h.pairs id o ho
      · have hpair := h.pairs _ _ hcur
        exact hpair

theorem COMMISSION_nonneg : 0 ≤ COMMISSION := by
  rw [COMMISSION]; norm_num

theorem Inv.lockedValue_nonneg (hinv : Inv s) (hcur : s.madeOrders[order.orderId]? = some order)
    (hprice : 0 < price) : 0 ≤ order.lockedValue price := by
  have hqty := (hinv.madeOrders _ order hcur).lockedQty_nonneg
  unfold Order.lockedValue
  cases order.side
  · exact hqty
  · exact mul_nonneg hqty hprice.le

/-- A fill adds its commission to the ledger. -/
theorem Ledger.filled (hl : Ledger s₀ s) (hcur : s.madeOrders[order.orderId]? = some order)
    (hopen : order.status = .opened) (h : Fills s order price qty a a' wallet) :
    Ledger s₀ (s.filled order price qty a a' wallet) := by
  have hprice := hl.inv.price_pos h
  refine ⟨accounting_quoted.filled hl.toQuoted hcur hopen h, hl.midPrices, ?_⟩
  obtain ⟨trades, hfills, hvalue, hpays⟩ := hl.trades
  have hpair : IsPair s.portfolio.quote order.instrument := hl.quote_eq ▸ hl.pairs _ order hcur
  have hcommission : (tradeOf order s.now price qty).commissionValue =
      COMMISSION * order.lockedValue price := by
    rw [hl.inv.qty_eq hcur h, commissionValue_tradeOf hprice.ne']
  refine ⟨trades ++ [tradeOf order s.now price qty], ?_, ?_, fun trade htrade => ?_⟩
  · rw [← List.append_assoc, ← hfills]
    rfl
  · have hfilled := value_filled hl.inv hcur hpair h
    rw [List.map_append, List.sum_append, List.map_singleton, List.sum_singleton, hcommission]
    calc value (s.filled order price qty a a' wallet).portfolio s.midPrices
      _ = value s.portfolio s.midPrices - COMMISSION * order.lockedValue price := hfilled
      _ = _ := by rw [hvalue]; ring
  · rcases List.mem_append.1 htrade with htrade | htrade
    · -- an order filled now keeps its locked value
      obtain ⟨o, ho, hpay, hnonneg⟩ := hpays trade htrade
      by_cases hid : trade.orderId = order.orderId
      · refine ⟨{ order with status := .filled }, (getElem?_filled_iff hcur).2 (.inr ⟨hid, rfl⟩),
          ?_, hnonneg⟩
        obtain rfl := Option.some.inj ((hid ▸ ho).symm.trans hcur)
        exact hpay
      · exact ⟨o, (getElem?_filled_iff hcur).2 (.inl ⟨hid, ho⟩), hpay, hnonneg⟩
    · obtain rfl := List.mem_singleton.1 htrade
      refine ⟨{ order with status := .filled }, (getElem?_filled_iff hcur).2 (.inr ⟨rfl, rfl⟩),
        hcommission, ?_⟩
      rw [hcommission]
      exact mul_nonneg COMMISSION_nonneg (hl.inv.lockedValue_nonneg hcur hprice)

theorem accounting_ledger : Accounting (Ledger s₀) where
  inv h := h.inv
  congr h hportfolio hmade hfills hmid := by
    refine ⟨accounting_quoted.congr h.toQuoted hportfolio hmade hfills hmid, hmid ▸ h.midPrices, ?_⟩
    rw [hportfolio, hmade, hfills, hmid]
    exact h.trades
  filled := Ledger.filled

/-- An order is made of a pair with the quote asset. -/
def Call.Pairs (quote : AssetInstrument) : Call → Prop
  | .makeOrder _ _ instrument _ _ => IsPair quote instrument
  | .next _ _ | .stageForExecution _ | .updateState => True

/-- A call that is not the next prices. -/
def Call.KeepsPrices : Call → Prop
  | .next _ _ => False
  | .makeOrder _ _ _ _ _ | .stageForExecution _ | .updateState => True

theorem Quoted.made (hq : Quoted quote s) (h : Makes s order a wallet) (hqty : 0 ≤ order.lockedQty)
    (hpair : IsPair quote order.instrument) : Quoted quote (s.made order a wallet) := by
  refine ⟨hq.inv.made h hqty, hq.quote_eq, fun id o ho => ?_⟩
  rcases (getElem?_made_iff h).1 ho with ho | ⟨-, rfl⟩
  · exact hq.pairs id o ho
  · exact hpair

theorem Ledger.made (hl : Ledger s₀ s) (h : Makes s order a wallet) (hqty : 0 ≤ order.lockedQty)
    (hpair : IsPair s₀.portfolio.quote order.instrument) : Ledger s₀ (s.made order a wallet) := by
  refine ⟨hl.toQuoted.made h hqty hpair, hl.midPrices, ?_⟩
  obtain ⟨trades, hfills, hvalue, hpays⟩ := hl.trades
  refine ⟨trades, hfills, ?_, fun trade htrade => ?_⟩
  · rw [← hvalue]
    exact value_eq_of_totals_eq (totals_made h) rfl
  · obtain ⟨o, ho, hpay⟩ := hpays trade htrade
    exact ⟨o, (getElem?_made_iff h).2 (.inl ho), hpay⟩

/-- Every call keeps the quote asset and the pairs. -/
theorem Quoted.step {call : Call} (hq : Quoted quote s) (hok : call.Ok) (hpairs : call.Pairs quote)
    (h : step s call = some s') : Quoted quote s' := by
  refine accounting_quoted.step hok hq h ?_ ?_
  · rintro side orderType _ qty price rfl order a wallet rfl hqty hm
    exact hq.made hm hqty hpairs
  · rintro now midPrices rfl
    exact ⟨hq.inv.step hok rfl, hq.quote_eq, hq.pairs⟩

/-- Every call but the next prices keeps the ledger. -/
theorem Ledger.step {call : Call} (hl : Ledger s₀ s) (hok : call.Ok)
    (hpairs : call.Pairs s₀.portfolio.quote) (hkeeps : call.KeepsPrices)
    (h : step s call = some s') : Ledger s₀ s' := by
  refine accounting_ledger.step hok hl h ?_ ?_
  · rintro side orderType _ qty price rfl order a wallet rfl hqty hm
    exact hl.made hm hqty hpairs
  · rintro now midPrices rfl
    exact hkeeps.elim

/-- Making an order leaves every total as it is. -/
theorem totals_makeOrder (side : OrderSide) (orderType : OrderType) (instrument : Instrument)
    (qty price : ℚ) (s : Backtest) :
    totals (makeOrder side orderType instrument qty price s).2.portfolio = totals s.portfolio := by
  rcases makeOrder_cases side orderType instrument qty price s with ⟨e, he⟩ | ⟨a, wallet, hm, he⟩
  · rw [he]
  · rw [he]
    exact totals_made hm

/-- Staging orders leaves the portfolio as it is. -/
theorem portfolio_stageForExecution (orders : List ℕ) (s : Backtest) :
    (stageForExecution orders s).2.portfolio = s.portfolio := by
  have hportfolio : OfFunds fun s' => s'.portfolio = s.portfolio :=
    fun _ _ hs h _ _ _ => h.trans hs
  exact (hportfolio.stageForExecution orders).snd rfl

/-- Executing an open order costs its commission, or raises and changes nothing. -/
theorem Quoted.executeOrder (hq : Quoted quote s)
    (hcur : s.madeOrders[order.orderId]? = some order) :
    (∃ e, executeOrder order s = (.error e, s)) ∨
      ∃ trade s', executeOrder order s = (.ok trade, s') ∧
        getItem s.midPrices order.instrument = .ok trade.price ∧
        value s'.portfolio s.midPrices =
          value s.portfolio s.midPrices - COMMISSION * order.lockedValue trade.price := by
  rcases executeOrder_cases s order with he | ⟨price, qty, a, a', wallet, h⟩
  · exact .inl he
  · refine .inr ⟨_, _, executeOrder_of_fills h fun _ => (hq.inv.price_pos h).ne', h.price, ?_⟩
    exact value_filled hq.inv hcur (hq.quote_eq ▸ hq.pairs _ order hcur) h

/-- From prices to the next ones the value falls by the commissions. -/
theorem Quoted.ledger_of_run {calls : List Call} (hq : Quoted quote s)
    (hcalls : ∀ call ∈ calls, call.Ok ∧ call.Pairs quote ∧ call.KeepsPrices)
    (h : Transition.run Backtester.step s calls = some s') : Ledger s s' := by
  obtain rfl := hq.quote_eq
  have hall : Transition.AllSteps Backtester.step
      (fun _ call => call.Ok ∧ call.Pairs s.portfolio.quote ∧ call.KeepsPrices) s calls :=
    Transition.allSteps_of_forall hcalls
  have hstart : Ledger s s := ⟨hq, rfl, [], by simp, by simp, by simp⟩
  exact Transition.invariant_of_allSteps
    (fun _ _ _ hl hok hstep => Ledger.step hl hok.1 hok.2.1 hok.2.2 hstep) hstart hall h

theorem quoted_of_run {portfolio : Portfolio} {now : ℚ} {midPrices : List (Instrument × ℚ)}
    {calls : List Call} (hassets : (portfolio.wallets.map Wallet.assetInstrument).Nodup)
    (hwallets : ∀ w ∈ portfolio.wallets, 0 ≤ w.balance ∧ w.locked = ∅)
    (hmid : ∀ p ∈ midPrices, 0 < p.2)
    (hcalls : ∀ call ∈ calls, call.Ok ∧ call.Pairs portfolio.quote)
    (h : Transition.run Backtester.step (initial portfolio now midPrices) calls = some s) :
    Quoted portfolio.quote s := by
  have hall : Transition.AllSteps Backtester.step
      (fun _ call => call.Ok ∧ call.Pairs portfolio.quote) (initial portfolio now midPrices)
      calls :=
    Transition.allSteps_of_forall hcalls
  have hstart : Quoted portfolio.quote (initial portfolio now midPrices) :=
    ⟨inv_initial hassets hwallets hmid, rfl, fun id o ho => by simp [initial] at ho⟩
  exact Transition.invariant_of_allSteps
    (fun _ _ _ hq hok hstep => Quoted.step hq hok.1 hok.2 hstep) hstart hall h

/-- **The value in every run**: making and staging orders change no total, executing an order costs
its commission, and from prices to the next ones the value falls by the commissions. -/
theorem value_of_run {portfolio : Portfolio} {now : ℚ} {midPrices : List (Instrument × ℚ)}
    {calls : List Call} (hassets : (portfolio.wallets.map Wallet.assetInstrument).Nodup)
    (hwallets : ∀ w ∈ portfolio.wallets, 0 ≤ w.balance ∧ w.locked = ∅)
    (hmid : ∀ p ∈ midPrices, 0 < p.2)
    (hcalls : ∀ call ∈ calls, call.Ok ∧ call.Pairs portfolio.quote)
    (h : Transition.run Backtester.step (initial portfolio now midPrices) calls = some s) :
    (∀ side orderType instrument qty price,
        totals (makeOrder side orderType instrument qty price s).2.portfolio =
          totals s.portfolio) ∧
      (∀ orders, totals (stageForExecution orders s).2.portfolio = totals s.portfolio) ∧
      (∀ order ∈ s.madeOrders, order.status = .opened →
        (∃ e, executeOrder order s = (.error e, s)) ∨
          ∃ trade s', executeOrder order s = (.ok trade, s') ∧
            getItem s.midPrices order.instrument = .ok trade.price ∧
            value s'.portfolio s.midPrices =
              value s.portfolio s.midPrices - COMMISSION * order.lockedValue trade.price) ∧
      ∀ calls' s', (∀ call ∈ calls', call.Ok ∧ call.Pairs portfolio.quote ∧ call.KeepsPrices) →
        Transition.run Backtester.step s calls' = some s' →
        value s'.portfolio s'.midPrices ≤ value s.portfolio s.midPrices ∧
          ∃ trades, s'.fills = s.fills ++ trades ∧
            value s'.portfolio s'.midPrices =
              value s.portfolio s.midPrices - (trades.map Trade.commissionValue).sum ∧
            ∀ trade ∈ trades, PaysCommission s'.madeOrders trade := by
  have hq := quoted_of_run hassets hwallets hmid hcalls h
  refine ⟨fun side orderType instrument qty price => totals_makeOrder _ _ _ _ _ s,
    fun orders => by rw [portfolio_stageForExecution], fun order horder _ => ?_,
    fun calls' s' hcalls' h' => ?_⟩
  · obtain ⟨id, hid⟩ := List.getElem?_of_mem horder
    exact hq.executeOrder ((hq.inv.madeOrders id order hid).orderId ▸ hid)
  · obtain ⟨trades, hfills, hvalue, hpays⟩ := (hq.ledger_of_run hcalls' h').trades
    refine ⟨?_, trades, hfills, hvalue, hpays⟩
    have hnonneg : 0 ≤ (trades.map Trade.commissionValue).sum := by
      refine List.sum_nonneg fun x hx => ?_
      obtain ⟨trade, htrade, rfl⟩ := List.mem_map.1 hx
      obtain ⟨-, -, -, hx⟩ := hpays trade htrade
      exact hx
    rw [hvalue]
    exact sub_le_self _ hnonneg

theorem isPair_demoInstrument : IsPair demoPortfolio.quote demoInstrument :=
  isPair_compose "BTC" (by decide) (by decide) (by decide)

theorem value_of_run_demo :
    ∃ s, Transition.run Backtester.step (initial demoPortfolio 0 [(demoInstrument, 100)])
        (demoCalls.take 3) = some s ∧
      value (updateState s).2.portfolio (updateState s).2.midPrices ≤
        value s.portfolio s.midPrices := by
  have hrun : (Transition.run Backtester.step (initial demoPortfolio 0 [(demoInstrument, 100)])
      (demoCalls.take 3)).isSome := by
    decide +kernel
  obtain ⟨s, hs⟩ := Option.isSome_iff_exists.1 hrun
  have hcalls : ∀ call ∈ demoCalls.take 3, call.Ok ∧ call.Pairs demoPortfolio.quote := by
    intro call hcall
    simp only [demoCalls, List.take_succ_cons, List.take_zero, List.mem_cons, List.not_mem_nil,
      or_false] at hcall
    rcases hcall with rfl | rfl | rfl
    · exact ⟨by simp [Call.Ok], isPair_demoInstrument⟩
    · exact ⟨by simp [Call.Ok], isPair_demoInstrument⟩
    · exact ⟨trivial, trivial⟩
  obtain ⟨-, -, -, hvalue⟩ :=
    value_of_run (by decide +kernel) demoPortfolio_unlocked (by decide +kernel) hcalls hs
  refine ⟨s, hs, (hvalue [.updateState] _ (fun call hcall => ?_) rfl).1⟩
  obtain rfl := List.mem_singleton.1 hcall
  exact ⟨trivial, trivial, trivial⟩

end Backtester

end Svoe
