import Svoe.Backtester.WalletInvariant

/-!
# Limit orders

A buy order with a limit is executed once the mid price is at least its limit, and a sell order once
it is at most its limit.  So an order that trades within its limit trades exactly at it.

* `Executed.executeStagedOrders` : all that executing the staged orders does.
* `respectsLimits_iff_midsAtLimits` : one call.
* `allSteps_respectsLimits_iff` : runs.
-/

namespace Svoe

namespace Backtester

open Raising

/-! ### Executing the staged orders -/

/-- An open order without a mid price.  Executing it raises. -/
def lacksPrice (s : Backtest) (id : ℕ) : Bool :=
  match s.madeOrders[id]? with
  | none => false
  | some order => order.status = .opened && (dictGet s.midPrices order.instrument).isNone

/-- The staged orders before the first one without a mid price. -/
def reached (s : Backtest) (ids : List ℕ) : List ℕ := ids.takeWhile fun id => !lacksPrice s id

/-- An order is executed if it is open, has a mid price, and waits for no other price. -/
def executes (s : Backtest) (order : Order) : Bool :=
  order.status = .opened && match dictGet s.midPrices order.instrument with
  | none => false
  | some midPrice => order.orderType = .market || limitReached order midPrice

variable {s s' : Backtest} {order : Order} {price qty midPrice : ℚ} {a a' : AssetInstrument}
  {wallet : Wallet} {ids : List ℕ} {id : ℕ}

theorem executes_eq_true_iff : executes s order ↔ order.status = .opened ∧
    ∃ midPrice, dictGet s.midPrices order.instrument = some midPrice ∧
      (order.orderType = .limit → limitReached order midPrice) := by
  unfold executes
  cases dictGet s.midPrices order.instrument with
  | none => simp
  | some midPrice => cases order.orderType <;> simp

theorem lacksPrice_eq_true_iff : lacksPrice s id ↔ ∃ order, s.madeOrders[id]? = some order ∧
    order.status = .opened ∧ dictGet s.midPrices order.instrument = none := by
  unfold lacksPrice
  cases s.madeOrders[id]? with
  | none => simp
  | some order => simp

/-- An open order with a mid price has what it needs to be filled. -/
theorem Inv.exists_fills (hinv : Inv s) (hcur : s.madeOrders[order.orderId]? = some order)
    (hopen : order.status = .opened) (hmid : dictGet s.midPrices order.instrument = some midPrice) :
    ∃ qty a a' wallet, Fills s order midPrice qty a a' wallet := by
  obtain ⟨-, -, -, hfrom, w', hw', hto⟩ := hinv.madeOrders _ order hcur
  obtain ⟨w, hw, hfrom, hlocked⟩ := hfrom hopen
  have hitem : getItem s.midPrices order.instrument = .ok midPrice := by
    rw [getItem, hmid]
  exact ⟨order.lockedQty, w.assetInstrument, w'.assetInstrument, w, hitem, hfrom, hto,
    Portfolio.getWallet_eq_ok hinv.assets_nodup hw,
    ⟨w', Portfolio.getWallet_eq_ok hinv.assets_nodup hw'⟩, hlocked⟩

/-- What executing the staged orders `ids` makes of the backtest `s`. -/
structure Executed (s : Backtest) (ids : List ℕ) (s' : Backtest) : Prop where
  inv : Inv s'
  midPrices : s'.midPrices = s.midPrices
  madeOrders : ∀ id, s'.madeOrders[id]? = (s.madeOrders[id]?).map fun order =>
    if id ∈ ids ∧ executes s order then { order with status := .filled } else order
  fills : ∃ trades, s'.fills = s.fills ++ trades ∧
    (∀ trade ∈ trades, trade.orderId ∈ ids ∧ ∃ order, s.madeOrders[trade.orderId]? = some order ∧
      executes s order ∧ dictGet s.midPrices order.instrument = some trade.price ∧
      trade.tradeType = order.orderType) ∧
    ∀ id ∈ ids, ∀ order, s.madeOrders[id]? = some order → executes s order →
      ∃ trade ∈ trades, trade.orderId = id

theorem executed_nil (hinv : Inv s) : Executed s [] s :=
  ⟨hinv, rfl, fun id => by simp, [], by simp, by simp, by simp⟩

theorem ofFunds_executed : OfFunds (Executed s ids) := by
  intro t t' h hportfolio hmade hfills hmid
  refine ⟨accounting_inv.ofFunds _ _ h.inv hportfolio hmade hfills hmid, hmid.trans h.midPrices, ?_,
    ?_⟩
  · rw [hmade]; exact h.madeOrders
  · rw [hfills]; exact h.fills

/-- An order that is not executed is left out. -/
theorem Executed.skip (h : Executed s ids s')
    (hid : ∀ order, s.madeOrders[id]? = some order → executes s order → id ∈ ids) :
    Executed s (ids ++ [id]) s' := by
  refine ⟨h.inv, h.midPrices, fun id' => ?_, ?_⟩
  · rw [h.madeOrders id']
    refine Option.map_congr fun order horder => ?_
    have hiff : id' ∈ ids ∧ executes s order ↔ id' ∈ ids ++ [id] ∧ executes s order := by
      refine and_congr_left fun hexecutes => ?_
      rw [List.mem_append, List.mem_singleton]
      refine ⟨.inl, ?_⟩
      rintro (hmem | rfl)
      · exact hmem
      · exact hid order horder hexecutes
    simp only [hiff]
  · obtain ⟨trades, hfills, hof, hall⟩ := h.fills
    refine ⟨trades, hfills, fun trade htrade => ?_, fun id' hid' order horder hexecutes => ?_⟩
    · obtain ⟨hmem, hrest⟩ := hof trade htrade
      exact ⟨List.mem_append_left _ hmem, hrest⟩
    · rcases List.mem_append.1 hid' with hmem | hmem
      · exact hall id' hmem order horder hexecutes
      · obtain rfl := List.mem_singleton.1 hmem
        exact hall id' (hid order horder hexecutes) order horder hexecutes

/-- An open order is as it was. -/
theorem Executed.of_opened (h : Executed s ids s') (hcur : s'.madeOrders[id]? = some order)
    (hopen : order.status = .opened) :
    s.madeOrders[id]? = some order ∧ (executes s order → id ∉ ids) := by
  rw [h.madeOrders id, Option.map_eq_some_iff] at hcur
  obtain ⟨o, ho, rfl⟩ := hcur
  split_ifs at hopen ⊢ with hexecutes
  exact ⟨ho, fun hex hmem => hexecutes ⟨hmem, hex⟩⟩

/-- An order that is executed is filled. -/
theorem Executed.fill (h : Executed s ids s') (hcur : s'.madeOrders[order.orderId]? = some order)
    (hopen : order.status = .opened) (hexecutes : executes s order)
    (hf : Fills s' order price qty a a' wallet) :
    Executed s (ids ++ [order.orderId]) (s'.filled order price qty a a' wallet) := by
  obtain ⟨hbefore, -⟩ := h.of_opened hcur hopen
  refine ⟨h.inv.filled hcur hopen hf, h.midPrices, fun id => ?_, ?_⟩
  · by_cases hid : id = order.orderId
    · subst hid
      rw [(getElem?_filled_iff hcur).2 (.inr ⟨rfl, rfl⟩), hbefore]
      simp [hexecutes]
    · have hsame : (s'.filled order price qty a a' wallet).madeOrders[id]? = s'.madeOrders[id]? :=
        List.getElem?_set_ne (Ne.symm hid)
      rw [hsame, h.madeOrders id]
      simp [hid]
  · obtain ⟨trades, hfills, hof, hall⟩ := h.fills
    refine ⟨trades ++ [tradeOf order s'.now price qty], ?_, fun trade htrade => ?_,
      fun id hid o ho hex => ?_⟩
    · rw [← List.append_assoc, ← hfills]
      rfl
    · rcases List.mem_append.1 htrade with htrade | htrade
      · obtain ⟨hmem, hrest⟩ := hof trade htrade
        exact ⟨List.mem_append_left _ hmem, hrest⟩
      · obtain rfl := List.mem_singleton.1 htrade
        have hprice := dictGet_of_getItem hf.price
        rw [h.midPrices] at hprice
        exact ⟨List.mem_append_right _ (List.mem_singleton.2 rfl), order, hbefore, hexecutes,
          hprice, rfl⟩
    · rcases List.mem_append.1 hid with hid | hid
      · obtain ⟨trade, htrade, rfl⟩ := hall id hid o ho hex
        exact ⟨trade, List.mem_append_left _ htrade, rfl⟩
      · obtain rfl := List.mem_singleton.1 hid
        exact ⟨_, List.mem_append_right _ (List.mem_singleton.2 rfl), rfl⟩

/-- An order that is not open is one that was executed, or was closed before. -/
theorem Executed.executeStagedOrder_of_closed (h : Executed s ids s')
    (hcur : s'.madeOrders[order.orderId]? = some order)
    (hclosed : order.status = .cancelled ∨ order.status = .filled) :
    lacksPrice s order.orderId = false ∧ Backtester.executeStagedOrder order s' = (.ok [], s') ∧
      Executed s (ids ++ [order.orderId]) s' := by
  have hbefore : ∀ o, s.madeOrders[order.orderId]? = some o → o.status = .opened →
      order.orderId ∈ ids ∧ executes s o := fun o ho hopen => by
    rw [h.madeOrders, ho, Option.map_some] at hcur
    by_contra hnot
    rw [if_neg hnot] at hcur
    obtain rfl := Option.some.inj hcur
    rcases hclosed with hclosed | hclosed <;> rw [hopen] at hclosed <;> cases hclosed
  refine ⟨Bool.eq_false_iff.2 fun hlacks => ?_, ?_, h.skip fun o ho hex =>
    (hbefore o ho (executes_eq_true_iff.1 hex).1).1⟩
  · obtain ⟨o, ho, hopen, hnone⟩ := lacksPrice_eq_true_iff.1 hlacks
    obtain ⟨-, mid, hmid, -⟩ := executes_eq_true_iff.1 (hbefore o ho hopen).2
    rw [hnone] at hmid
    cases hmid
  · rw [Backtester.executeStagedOrder, if_pos hclosed]
    rfl

/-- An open order without a mid price raises. -/
theorem executeStagedOrder_of_no_price (hopen : order.status = .opened)
    (hmid : dictGet s'.midPrices order.instrument = none) :
    ∃ e, executeStagedOrder order s' = (.error e, s') := by
  rw [executeStagedOrder, if_neg (not_closed_of_opened hopen)]
  cases order.orderType with
  | market =>
    rcases executeOrder_cases s' order with ⟨e, he⟩ | ⟨price, qty, a, a', wallet, hf⟩
    · exact ⟨e, bind_of_error he⟩
    · rw [dictGet_of_getItem hf.price] at hmid
      cases hmid
  | limit =>
    dsimp only
    rw [get_bind, hmid]
    exact ⟨_, rfl⟩

/-- An open order with a mid price is filled, or waits for its limit. -/
theorem Executed.executeStagedOrder_of_price (h : Executed s ids s')
    (hcur : s'.madeOrders[order.orderId]? = some order) (hopen : order.status = .opened)
    {midPrice : ℚ} (hmid : dictGet s'.midPrices order.instrument = some midPrice) :
    ∃ trades t, Backtester.executeStagedOrder order s' = (.ok trades, t) ∧
      Executed s (ids ++ [order.orderId]) t := by
  obtain ⟨hbefore, -⟩ := h.of_opened hcur hopen
  obtain ⟨qty, a, a', wallet, hf⟩ := h.inv.exists_fills hcur hopen hmid
  have hexecute := executeOrder_of_fills hf fun _ => (h.inv.price_pos hf).ne'
  rw [Backtester.executeStagedOrder, if_neg (not_closed_of_opened hopen)]
  cases htype : order.orderType with
  | market =>
    have hexecutes : executes s order := executes_eq_true_iff.2
      ⟨hopen, midPrice, h.midPrices ▸ hmid, fun hlimit => by rw [htype] at hlimit; cases hlimit⟩
    exact ⟨_, _, bind_of_ok hexecute, h.fill hcur hopen hexecutes hf⟩
  | limit =>
    dsimp only
    rw [get_bind, hmid]
    dsimp only
    split_ifs with hreached
    · have hexecutes : executes s order := executes_eq_true_iff.2
        ⟨hopen, midPrice, h.midPrices ▸ hmid, fun _ => hreached⟩
      exact ⟨_, _, bind_of_ok hexecute, h.fill hcur hopen hexecutes hf⟩
    · refine ⟨_, _, rfl, h.skip fun o ho hex => absurd ?_ hreached⟩
      obtain rfl := Option.some.inj (hbefore.symm.trans ho)
      obtain ⟨-, mid, hmid', hlimit⟩ := executes_eq_true_iff.1 hex
      rw [← h.midPrices, hmid] at hmid'
      obtain rfl := Option.some.inj hmid'
      exact hlimit htype

/-- **One round of the loop**: it raises at an open order without a mid price, and else goes on with
the order among the executed ones. -/
theorem Executed.executeStagedOrder (h : Executed s ids s')
    (hcur : s'.madeOrders[order.orderId]? = some order) :
    (lacksPrice s order.orderId = true ∧ ∃ e, executeStagedOrder order s' = (.error e, s')) ∨
      lacksPrice s order.orderId = false ∧ ∃ trades t,
        executeStagedOrder order s' = (.ok trades, t) ∧
          Executed s (ids ++ [order.orderId]) t := by
  by_cases hclosed : order.status = .cancelled ∨ order.status = .filled
  · obtain ⟨hlacks, hround, hdone⟩ := h.executeStagedOrder_of_closed hcur hclosed
    exact .inr ⟨hlacks, [], s', hround, hdone⟩
  · have hopen : order.status = .opened :=
      (h.inv.madeOrders _ order hcur).status.resolve_right fun hf => hclosed (.inr hf)
    obtain ⟨hbefore, -⟩ := h.of_opened hcur hopen
    cases hmid : dictGet s'.midPrices order.instrument with
    | none =>
      exact .inl ⟨lacksPrice_eq_true_iff.2 ⟨order, hbefore, hopen, h.midPrices ▸ hmid⟩,
        executeStagedOrder_of_no_price hopen hmid⟩
    | some midPrice =>
      refine .inr ⟨Bool.eq_false_iff.2 fun hlacks => ?_,
        h.executeStagedOrder_of_price hcur hopen hmid⟩
      obtain ⟨o, ho, -, hnone⟩ := lacksPrice_eq_true_iff.1 hlacks
      obtain rfl := Option.some.inj (hbefore.symm.trans ho)
      rw [← h.midPrices, hmid] at hnone
      cases hnone

/-- **The loop** executes the staged orders up to the first one without a mid price. -/
theorem Executed.executeStagedOrders {done : List ℕ} (h : Executed s done s') :
    Executed s (done ++ reached s ids) (executeStagedOrders ids s').2 := by
  induction ids generalizing done s' with
  | nil => rwa [reached, List.takeWhile_nil, List.append_nil]
  | cons id ids ih =>
    have hnext : ∀ t, lacksPrice s id = false → Executed s (done ++ [id]) t →
        Executed s (done ++ reached s (id :: ids)) (Backtester.executeStagedOrders ids t).2 := by
      intro t hlacks ht
      rw [reached, List.takeWhile_cons_of_pos (by rw [hlacks]; rfl), ← List.singleton_append,
        ← List.append_assoc]
      exact ih ht
    rw [Backtester.executeStagedOrders, get_bind]
    cases hcur : s'.madeOrders[id]? with
    | none =>
      have hnone : s.madeOrders[id]? = none := by
        have hmap := h.madeOrders id
        rw [hcur] at hmap
        exact Option.map_eq_none_iff.1 hmap.symm
      have hlacks : lacksPrice s id = false := by
        rw [lacksPrice, hnone]
      exact hnext s' hlacks (h.skip fun o ho => by rw [hnone] at ho; cases ho)
    | some order =>
      obtain rfl : order.orderId = id := (h.inv.madeOrders id order hcur).orderId
      rcases h.executeStagedOrder hcur with ⟨hlacks, e, he⟩ | ⟨hlacks, trades, t, ht, hexecuted⟩
      · dsimp only
        rw [bind_of_error he, reached, List.takeWhile_cons_of_neg (by rw [hlacks]; decide),
          List.append_nil]
        exact h
      · dsimp only
        rw [bind_of_ok ht]
        have hrest := hnext t hlacks hexecuted
        rcases hres : Backtester.executeStagedOrders ids t with ⟨e | res, t'⟩
        · rw [hres] at hrest
          rw [bind_of_error hres]
          exact hrest
        · rw [hres] at hrest
          rw [bind_of_ok hres]
          exact hrest

/-- What `update_state` makes of the orders. -/
theorem executed_updateState (hinv : Inv s) :
    Executed s (reached s s.orders) (updateState s).2 := by
  have hexecuted : Executed s ([] ++ reached s s.orders) (executeStagedOrders s.orders s).2 :=
    (executed_nil hinv).executeStagedOrders
  rw [List.nil_append] at hexecuted
  rw [updateState, get_bind]
  rcases hres : executeStagedOrders s.orders s with ⟨e | trades, t⟩
  · rw [hres] at hexecuted
    rw [bind_of_error hres]
    exact hexecuted
  · rw [hres] at hexecuted
    rw [bind_of_ok hres]
    split_ifs
    · rw [modify_bind]
      refine (ofFunds_executed.recordStateSnapshot).snd ?_
      exact ofFunds_executed _ _ hexecuted rfl rfl rfl rfl
    · exact hexecuted

/-! ### Limits -/

/-- The prices within the limit of an order: a buyer pays no more, a seller gets no less. -/
def Order.WithinLimit (order : Order) (price : ℚ) : Prop :=
  match order.side with
  | .buy => price ≤ order.price
  | .sell => order.price ≤ price

/-- A staged open limit order at a mid price. -/
structure Waits (s : Backtest) (order : Order) (midPrice : ℚ) : Prop where
  staged : order.orderId ∈ s.orders
  made : s.madeOrders[order.orderId]? = some order
  status : order.status = .opened
  orderType : order.orderType = .limit
  midPrice : dictGet s.midPrices order.instrument = some midPrice

/-- A call makes trades of limit orders only within their limits, and `update_state` fills all open
ones that are within theirs. -/
def RespectsLimits (s : Backtest) (call : Call) : Prop :=
  ∀ s', step s call = some s' →
    (∃ trades, s'.fills = s.fills ++ trades ∧ ∀ trade ∈ trades, trade.tradeType = .limit →
      ∃ order, s.madeOrders[trade.orderId]? = some order ∧ order.WithinLimit trade.price) ∧
    (call = .updateState → ∀ order midPrice, Waits s order midPrice → order.WithinLimit midPrice →
      s'.madeOrders[order.orderId]? = some { order with status := .filled })

/-- At `update_state`, an open limit order has its limit as mid price.  One that is not reached,
because an order before it has no mid price, is not within its limit. -/
def MidsAtLimits (s : Backtest) (call : Call) : Prop :=
  call = .updateState → ∀ order midPrice, Waits s order midPrice →
    if order.orderId ∈ reached s s.orders then midPrice = order.price
    else ¬ order.WithinLimit midPrice

theorem withinLimit_or_limitReached (order : Order) (price : ℚ) :
    order.WithinLimit price ∨ limitReached order price := by
  unfold Order.WithinLimit limitReached
  cases order.side
  · simpa using le_total price order.price
  · simpa using le_total order.price price

/-- **The condition is the wrong way round**: it leaves the limit itself only. -/
theorem withinLimit_and_limitReached_iff :
    order.WithinLimit price ∧ limitReached order price ↔ price = order.price := by
  unfold Order.WithinLimit limitReached
  cases order.side
  · simpa using (le_antisymm_iff (a := price) (b := order.price)).symm
  · simpa using (le_antisymm_iff (a := order.price) (b := price)).symm.trans eq_comm

theorem Waits.executes_iff (h : Waits s order midPrice) :
    executes s order ↔ limitReached order midPrice := by
  rw [executes_eq_true_iff]
  constructor
  · rintro ⟨-, mid, hmid, hlimit⟩
    obtain rfl := Option.some.inj (h.midPrice.symm.trans hmid)
    exact hlimit h.orderType
  · exact fun hlimit => ⟨h.status, midPrice, h.midPrice, fun _ => hlimit⟩

/-- An order is filled by the loop if it is reached and executed. -/
theorem Waits.filled_iff (h : Waits s order midPrice) (hexecuted : Executed s ids s') :
    s'.madeOrders[order.orderId]? = some { order with status := .filled } ↔
      order.orderId ∈ ids ∧ limitReached order midPrice := by
  rw [hexecuted.madeOrders, h.made, Option.map_some, ← h.executes_iff]
  refine ⟨fun hf => ?_, fun hf => by rw [if_pos hf]⟩
  by_contra hnot
  rw [if_neg hnot] at hf
  have hstatus : order.status = .filled := congrArg Order.status (Option.some.inj hf)
  rw [h.status] at hstatus
  cases hstatus

/-- **One update** respects the limits exactly if they are the mid prices. -/
theorem respectsLimits_updateState_iff (hinv : Inv s) :
    RespectsLimits s .updateState ↔ MidsAtLimits s .updateState := by
  have hexecuted := executed_updateState hinv
  obtain ⟨trades, hfills, hof, hall⟩ := hexecuted.fills
  constructor
  · rintro hrespects - order midPrice hwaits
    obtain ⟨⟨trades', hfills', hwithin⟩, hfilled⟩ := hrespects _ rfl
    obtain rfl : trades = trades' := List.append_cancel_left (hfills.symm.trans hfills')
    have hreachedOf : order.WithinLimit midPrice →
        order.orderId ∈ reached s s.orders ∧ limitReached order midPrice := fun hmid =>
      (hwaits.filled_iff hexecuted).1 (hfilled rfl order midPrice hwaits hmid)
    split_ifs with hreached
    · rw [← withinLimit_and_limitReached_iff]
      have hlimit : limitReached order midPrice :=
        (withinLimit_or_limitReached order midPrice).elim (fun h => (hreachedOf h).2) id
      -- it is executed, so its trade is within the limit
      obtain ⟨trade, htrade, hid⟩ :=
        hall _ hreached order hwaits.made (hwaits.executes_iff.2 hlimit)
      obtain ⟨-, o, ho, -, hprice, htype⟩ := hof trade htrade
      obtain rfl := Option.some.inj (hwaits.made.symm.trans (hid ▸ ho))
      obtain ⟨o, ho', hle⟩ := hwithin trade htrade (htype.trans hwaits.orderType)
      obtain rfl := Option.some.inj (ho.symm.trans ho')
      obtain rfl := Option.some.inj (hwaits.midPrice.symm.trans hprice)
      exact ⟨hle, hlimit⟩
    · exact fun hmid => hreached (hreachedOf hmid).1
  · intro hmids s' hs'
    obtain rfl := Option.some.inj hs'
    refine ⟨⟨trades, hfills, fun trade htrade htype => ?_⟩, fun _ order midPrice hwaits hmid => ?_⟩
    · obtain ⟨hreached, order, horder, hexecutes, hprice, htradeType⟩ := hof trade htrade
      have hid := (hinv.madeOrders _ order horder).orderId
      have hwaits : Waits s order trade.price :=
        ⟨hid ▸ List.takeWhile_subset _ hreached, hid ▸ horder, (executes_eq_true_iff.1 hexecutes).1,
          htradeType.symm.trans htype, hprice⟩
      have hmid := hmids rfl order trade.price hwaits
      rw [if_pos (hid ▸ hreached)] at hmid
      exact ⟨order, horder, (withinLimit_and_limitReached_iff.2 hmid).1⟩
    · rw [hwaits.filled_iff hexecuted]
      have hif := hmids rfl order midPrice hwaits
      split_ifs at hif with hreached
      · exact ⟨hreached, (withinLimit_and_limitReached_iff.2 hif).2⟩
      · exact absurd hmid hif

/-- Other calls make no trades. -/
theorem fills_of_step {call : Call} (hne : call ≠ .updateState) (h : step s call = some s') :
    s'.fills = s.fills := by
  cases call with
  | makeOrder side orderType instrument qty price =>
    obtain rfl := Option.some.inj h
    rcases makeOrder_cases side orderType instrument qty price s with ⟨e, he⟩ | ⟨a, wallet, -, he⟩
    · rw [he]
    · rw [he]
      rfl
  | stageForExecution orders =>
    simp only [Backtester.step] at h
    split_ifs at h
    obtain rfl := Option.some.inj h
    have hfills : OfFunds fun t => t.fills = s.fills := fun _ _ ht _ _ h _ => h.trans ht
    exact (hfills.stageForExecution orders).snd rfl
  | updateState => exact absurd rfl hne
  | next now midPrices =>
    obtain rfl := Option.some.inj h
    rfl

theorem respectsLimits_iff_midsAtLimits {call : Call} (hinv : Inv s) :
    RespectsLimits s call ↔ MidsAtLimits s call := by
  by_cases hcall : call = .updateState
  · subst hcall
    exact respectsLimits_updateState_iff hinv
  · refine iff_of_true (fun s' h => ⟨⟨[], ?_, by simp⟩, fun h => absurd h hcall⟩)
      fun h => absurd h hcall
    rw [fills_of_step hcall h, List.append_nil]

/-- **Limits in every run**: they are respected exactly if open limit orders are updated at their
limits only. -/
theorem allSteps_respectsLimits_iff {portfolio : Portfolio} {now : ℚ}
    {midPrices : List (Instrument × ℚ)} {calls : List Call}
    (hassets : (portfolio.wallets.map Wallet.assetInstrument).Nodup)
    (hwallets : ∀ w ∈ portfolio.wallets, 0 ≤ w.balance ∧ w.locked = ∅)
    (hmid : ∀ p ∈ midPrices, 0 < p.2) (hcalls : ∀ call ∈ calls, call.Ok) :
    Transition.AllSteps step RespectsLimits (initial portfolio now midPrices) calls ↔
      Transition.AllSteps step MidsAtLimits (initial portfolio now midPrices) calls :=
  Transition.allSteps_congr (fun _ _ _ hinv hok h => Inv.step hinv hok h)
    (fun _ _ hinv _ => respectsLimits_iff_midsAtLimits hinv) (inv_initial hassets hwallets hmid)
    hcalls

/-- An order to buy for 100 at most. -/
def limitCalls : List Call :=
  [.makeOrder .buy .limit demoInstrument 2 100, .stageForExecution [0], .updateState]

/-- The backtest of `limitCalls` at a mid price, before it is updated. -/
def demoStaged (midPrice : ℚ) : Backtest :=
  (stageForExecution [0] (makeOrder .buy .limit demoInstrument 2 100
    (initial demoPortfolio 0 [(demoInstrument, midPrice)])).2).2

/-- At a mid price of 100 the order is executed within its limit. -/
theorem allSteps_respectsLimits_iff_demo :
    Transition.AllSteps step RespectsLimits (initial demoPortfolio 0 [(demoInstrument, 100)])
      limitCalls := by
  refine (allSteps_respectsLimits_iff (by decide +kernel) demoPortfolio_unlocked
    (by decide +kernel) ?_).2 ?_
  · intro call hcall
    simp only [limitCalls, List.mem_cons, List.not_mem_nil, or_false] at hcall
    rcases hcall with rfl | rfl | rfl <;> simp [Call.Ok]
  · refine ⟨(fun h => by cases h), fun s hs => ⟨(fun h => by cases h),
      fun t ht => ⟨fun _ order midPrice hwaits => ?_, ?_⟩⟩⟩
    · obtain rfl := Option.some.inj hs
      have hstep : step _ (.stageForExecution [0]) = some (demoStaged 100) :=
        if_pos (by decide +kernel)
      obtain rfl := Option.some.inj (hstep.symm.trans ht)
      have hmade : (demoStaged 100).madeOrders =
          [⟨0, .limit, .buy, demoInstrument, 100, 2, .opened⟩] := by decide +kernel
      have hmids : (demoStaged 100).midPrices = [(demoInstrument, 100)] := by decide +kernel
      have hreached : reached (demoStaged 100) (demoStaged 100).orders = [0] := by decide +kernel
      obtain ⟨-, horder, -, -, hmid⟩ := hwaits
      rw [hmade, List.getElem?_singleton] at horder
      split_ifs at horder
      obtain rfl := Option.some.inj horder
      rw [hmids] at hmid
      obtain rfl := Option.some.inj hmid
      rw [if_pos (by rw [hreached]; decide)]
    · exact fun _ _ => trivial

/-- At a mid price of 110 it is executed too, for more than it may pay. -/
theorem not_respectsLimits_buyAbove :
    ¬ Transition.AllSteps step RespectsLimits (initial demoPortfolio 0 [(demoInstrument, 110)])
      limitCalls := by
  rintro ⟨-, hall⟩
  obtain ⟨-, hall⟩ := hall _ rfl
  obtain ⟨hrespects, -⟩ := hall (demoStaged 110) (if_pos (by decide +kernel))
  obtain ⟨⟨trades, hfills, hwithin⟩, -⟩ := hrespects _ rfl
  have hmade : (demoStaged 110).madeOrders =
      [⟨0, .limit, .buy, demoInstrument, 100, 2, .opened⟩] := by decide +kernel
  have hbefore : (demoStaged 110).fills = [] := by decide +kernel
  have hafter : (updateState (demoStaged 110)).2.fills.map
      (fun trade => (trade.orderId, trade.tradeType, trade.price)) = [(0, .limit, 110)] := by
    decide +kernel
  obtain ⟨trade, htrade, hdata⟩ := List.map_eq_singleton_iff.1 hafter
  rw [htrade, hbefore, List.nil_append] at hfills
  obtain ⟨hid, htype, hprice⟩ :
      trade.orderId = 0 ∧ trade.tradeType = .limit ∧ trade.price = 110 := by
    simpa using hdata
  obtain ⟨order, horder, hle⟩ := hwithin trade (hfills ▸ List.mem_singleton_self trade) htype
  rw [hmade, hid] at horder
  obtain rfl := Option.some.inj horder
  rw [hprice] at hle
  exact absurd hle (by norm_num [Order.WithinLimit])

end Backtester

end Svoe
