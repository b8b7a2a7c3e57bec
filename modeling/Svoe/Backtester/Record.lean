import Svoe.Backtester.WalletInvariant
import Svoe.Common.Dict

/-!
# The trades that are recorded

`update_state` fills the staged orders one after the other, and records their trades after the last
one.  Where it raises in between, the orders before stay filled and their trades are lost.

* `executeStagedOrder_cases` : all that one round of the loop can do.
* `exists_batch` : the orders that a call fills, and the trades it returns.
* `recorded_updateState_iff` : one call.
* `allStates_recorded_iff` : runs.
-/

namespace Svoe

namespace Backtester

open Raising

/-! ### What becomes of an order -/

/-- There is a mid price for the order (not zero, where it is divided by), its wallets are there, and
one of them has its amount locked. -/
def canFill (s : Backtest) (order : Order) : Bool :=
  match getItem s.midPrices order.instrument, order.assetFrom, order.assetTo with
  | .ok price, .ok a, .ok a' =>
    match s.portfolio.getWallet a, s.portfolio.getWallet a' with
    | .ok wallet, .ok _ => order.orderId ∈ wallet.locked ∧ (order.side = .buy → price ≠ 0)
    | _, _ => false
  | _, _, _ => false

/-- The order is open, and does not wait for another price. -/
def due (s : Backtest) (order : Order) : Bool :=
  order.status = .opened && match order.orderType with
  | .market => true
  | .limit =>
    match dictGet s.midPrices order.instrument with
    | none => true
    | some midPrice => limitReached order midPrice

/-- The order `id` is executed, which raises. -/
def raises (s : Backtest) (id : ℕ) : Bool :=
  s.madeOrders[id]?.any fun order => due s order && !canFill s order

/-- The order `id` is executed and filled. -/
def fillable (s : Backtest) (id : ℕ) : Bool :=
  s.madeOrders[id]?.any fun order => due s order && canFill s order

/-- No order is filled before one that raises. -/
def NoFillLost (s : Backtest) (ids : List ℕ) : Prop :=
  (∃ id ∈ ids, raises s id) → ∀ id ∈ ids.takeWhile fun id => !raises s id, ¬ fillable s id

instance (s : Backtest) (ids : List ℕ) : Decidable (NoFillLost s ids) :=
  inferInstanceAs (Decidable (_ → _))

/-- An order is open or filled, and has one fill if it is filled. -/
structure OrdersInv (s : Backtest) : Prop where
  orderId : ∀ (id : ℕ) (order : Order), s.madeOrders[id]? = some order → order.orderId = id
  status : ∀ (id : ℕ) (order : Order), s.madeOrders[id]? = some order →
    order.status = .opened ∨ order.status = .filled
  fills : ∀ id, s.fills.countP (fun trade => trade.orderId = id) =
    if s.madeOrders[id]?.map Order.status = some .filled then 1 else 0

variable {s s' t : Backtest} {order : Order} {price qty : ℚ} {a a' : AssetInstrument}
  {wallet : Wallet} {id : ℕ} {ids : List ℕ}

theorem OrdersInv.congr (hinv : OrdersInv s) (hmade : t.madeOrders = s.madeOrders)
    (hfills : t.fills = s.fills) : OrdersInv t :=
  ⟨hmade ▸ hinv.orderId, hmade ▸ hinv.status, hmade ▸ hfills ▸ hinv.fills⟩

theorem OrdersInv.made (hinv : OrdersInv s) (h : Makes s order a wallet) :
    OrdersInv (s.made order a wallet) := by
  refine ⟨fun id o ho => ?_, fun id o ho => ?_, countP_fills_made h hinv.fills⟩
  · rcases (getElem?_made_iff h).1 ho with ho | ⟨rfl, rfl⟩
    · exact hinv.orderId id o ho
    · rfl
  · rcases (getElem?_made_iff h).1 ho with ho | ⟨-, rfl⟩
    · exact hinv.status id o ho
    · exact .inl h.status

theorem OrdersInv.filled (hinv : OrdersInv s) (hcur : s.madeOrders[order.orderId]? = some order)
    (hopen : order.status = .opened) : OrdersInv (s.filled order price qty a a' wallet) := by
  refine ⟨fun id o ho => ?_, fun id o ho => ?_, countP_fills_filled hcur hopen hinv.fills⟩
  · rcases (getElem?_filled_iff hcur).1 ho with ⟨-, ho⟩ | ⟨rfl, rfl⟩
    · exact hinv.orderId id o ho
    · rfl
  · rcases (getElem?_filled_iff hcur).1 ho with ⟨-, ho⟩ | ⟨-, rfl⟩
    · exact hinv.status id o ho
    · exact .inr rfl

theorem canFill_eq_true_iff : canFill s order ↔ ∃ price qty a a' wallet,
    Fills s order price qty a a' wallet ∧ (order.side = .buy → price ≠ 0) := by
  constructor
  · intro h
    unfold canFill at h
    split at h
    case h_2 => cases h
    case h_1 price a a' hprice ha ha' =>
      split at h
      case h_2 => cases h
      case h_1 wallet w hwallet hw =>
        obtain ⟨hlocked, hzero⟩ := of_decide_eq_true h
        obtain ⟨qty, hqty⟩ := Finmap.mem_iff.1 hlocked
        exact ⟨price, qty, a, a', wallet, ⟨hprice, ha, ha', hwallet, ⟨w, hw⟩, hqty⟩, hzero⟩
  · rintro ⟨price, qty, a, a', wallet, ⟨hprice, ha, ha', hwallet, ⟨w, hw⟩, hqty⟩, hzero⟩
    simp only [canFill, hprice, ha, ha', hwallet, hw]
    exact decide_eq_true ⟨Finmap.mem_iff.2 ⟨qty, hqty⟩, hzero⟩

/-- A buy order at a price of zero raises after its amount was taken out of the wallet. -/
theorem executeOrder_of_zero (h : Fills s order 0 qty a a' wallet) (hside : order.side = .buy) :
    executeOrder order s = (.error .zeroDivision,
      { s with
        portfolio := s.portfolio.modifyWallet a fun _ => wallet.release order.orderId }) := by
  obtain ⟨hitem, hfrom, hto, hwallet, ⟨w, hw⟩, hlocked⟩ := h
  obtain ⟨⟨base, quote⟩, hassets, rfl⟩ := map_eq_ok_iff.1 hfrom
  obtain ⟨_, hassets', rfl⟩ := map_eq_ok_iff.1 hto
  obtain rfl := Except.ok.inj (hassets.symm.trans hassets')
  have hunlock : wallet.unlock order.orderId = .ok (wallet.release order.orderId, qty) :=
    Wallet.unlock_eq_ok_iff.2 ⟨hlocked, rfl⟩
  rw [executeOrder, get_bind, hitem, lift_ok_bind, hassets, lift_ok_bind]
  simp only [hside] at hwallet hw ⊢
  rw [hwallet, lift_ok_bind, hw, lift_ok_bind, bind_of_ok (unlock_of_ok hunlock), divide,
    if_pos rfl, lift_error_bind]

/-- An order that can not be filled raises, and neither the orders nor the trades change. -/
theorem executeOrder_of_not_canFill (h : canFill s order = false) :
    ∃ e p, executeOrder order s = (.error e, { s with portfolio := p }) := by
  rcases executeOrder_cases s order with ⟨e, he⟩ | ⟨price, qty, a, a', wallet, hf⟩
  · exact ⟨e, s.portfolio, he⟩
  · have hzero : order.side = .buy ∧ price = 0 := by
      by_contra hnot
      have hfill := canFill_eq_true_iff.2
        ⟨price, qty, a, a', wallet, hf, fun hside hprice => hnot ⟨hside, hprice⟩⟩
      rw [h] at hfill
      cases hfill
    obtain ⟨hside, rfl⟩ := hzero
    exact ⟨_, _, executeOrder_of_zero hf hside⟩

/-- **One round of the loop**: the order is left out, or executing it raises, or it is filled. -/
theorem executeStagedOrder_cases (hstatus : order.status = .opened ∨ order.status = .filled) :
    due s order = false ∧ executeStagedOrder order s = (.ok [], s) ∨
      (due s order = true ∧ canFill s order = false ∧
        ∃ e p, executeStagedOrder order s = (.error e, { s with portfolio := p })) ∨
      due s order = true ∧ canFill s order = true ∧ ∃ price qty a a' wallet,
        Fills s order price qty a a' wallet ∧ executeStagedOrder order s =
          (.ok [tradeOf order s.now price qty], s.filled order price qty a a' wallet) := by
  rcases hstatus with hopen | hfilled
  · have hclosed := not_closed_of_opened hopen
    have hexecute : canFill s order = false ∧ (∃ e p,
          (do return [← executeOrder order] : Sim (List Trade)) s =
            (.error e, { s with portfolio := p })) ∨
        canFill s order = true ∧ ∃ price qty a a' wallet, Fills s order price qty a a' wallet ∧
          (do return [← executeOrder order] : Sim (List Trade)) s =
            (.ok [tradeOf order s.now price qty], s.filled order price qty a a' wallet) := by
      cases hfill : canFill s order with
      | false =>
        obtain ⟨e, p, he⟩ := executeOrder_of_not_canFill hfill
        exact .inl ⟨rfl, e, p, bind_of_error he⟩
      | true =>
        obtain ⟨price, qty, a, a', wallet, hf, hprice⟩ := canFill_eq_true_iff.1 hfill
        exact .inr ⟨rfl, price, qty, a, a', wallet, hf,
          bind_of_ok (executeOrder_of_fills hf hprice)⟩
    rw [executeStagedOrder, if_neg hclosed, due, decide_eq_true hopen, Bool.true_and]
    cases order.orderType with
    | market => exact .inr (hexecute.imp (fun h => ⟨rfl, h⟩) fun h => ⟨rfl, h⟩)
    | limit =>
      dsimp only
      rw [get_bind]
      cases hmid : dictGet s.midPrices order.instrument with
      | none =>
        refine .inr (.inl ⟨rfl, Bool.eq_false_iff.2 fun hfill => ?_, _, s.portfolio, rfl⟩)
        obtain ⟨price, qty, a, a', wallet, hf, -⟩ := canFill_eq_true_iff.1 hfill
        rw [dictGet_of_getItem hf.price] at hmid
        cases hmid
      | some midPrice =>
        dsimp only
        split_ifs with hreached
        · exact .inr (hexecute.imp (fun h => ⟨hreached, h⟩) fun h => ⟨hreached, h⟩)
        · exact .inl ⟨Bool.eq_false_iff.2 hreached, rfl⟩
  · refine .inl ⟨?_, ?_⟩
    · simp [due, hfilled]
    · rw [executeStagedOrder, if_pos (.inr hfilled)]
      rfl

/-! ### The other orders after a fill -/

/-- A fill leaves the amounts of the other orders locked. -/
theorem canFill_filled (h : Fills s order price qty a a' wallet) {o : Order}
    (hne : o.orderId ≠ order.orderId) :
    canFill (s.filled order price qty a a' wallet) o = canFill s o := by
  have hwallet : ∀ b, (s.filled order price qty a a' wallet).portfolio.getWallet b =
      ((s.portfolio.getWallet b).map fun w =>
        if w.assetInstrument = a then w.release order.orderId else w).map fun w =>
          if w.assetInstrument = a' then w.deposit (received order.side qty price) else w := by
    intro b
    rw [filled_portfolio h, Portfolio.getWallet_modifyWallet
      (f := fun w => w.deposit (received order.side qty price)) fun _ => rfl,
      Portfolio.getWallet_modifyWallet (f := fun w => w.release order.orderId) fun _ => rfl]
  have hlocked : ∀ w : Wallet, o.orderId ∈ (w.release order.orderId).locked ↔
      o.orderId ∈ w.locked := fun w => by
    rw [Wallet.release, Finmap.mem_erase, and_iff_right hne]
  unfold canFill
  simp only [hwallet]
  have hmid : (s.filled order price qty a a' wallet).midPrices = s.midPrices := rfl
  rw [hmid]
  cases getItem s.midPrices o.instrument with
  | error e => rfl
  | ok p =>
    cases o.assetFrom with
    | error e => rfl
    | ok b =>
      cases o.assetTo with
      | error e => rfl
      | ok b' =>
        dsimp only
        cases s.portfolio.getWallet b with
        | error e => rfl
        | ok w =>
          cases s.portfolio.getWallet b' with
          | error e => rfl
          | ok w' =>
            refine decide_eq_decide.2 (and_congr_left fun _ => ?_)
            dsimp only
            split_ifs <;> simp only [Wallet.deposit, hlocked]

theorem due_eq_false_of_filled (h : order.status = .filled) : due s order = false := by
  simp [due, h]

/-- What an order of a list is after a fill: the filled one is done, the others are as they were. -/
theorem any_filled (hinv : OrdersInv s) (hcur : s.madeOrders[order.orderId]? = some order)
    (h : Fills s order price qty a a' wallet) (b : Bool → Bool) :
    ((s.filled order price qty a a' wallet).madeOrders[id]?.any fun o =>
        due (s.filled order price qty a a' wallet) o &&
          b (canFill (s.filled order price qty a a' wallet) o)) =
      (id ≠ order.orderId && s.madeOrders[id]?.any fun o => due s o && b (canFill s o)) := by
  by_cases hid : id = order.orderId
  · subst hid
    rw [(getElem?_filled_iff hcur).2 (.inr ⟨rfl, rfl⟩), Option.any_some,
      due_eq_false_of_filled rfl]
    simp
  · have hsame : (s.filled order price qty a a' wallet).madeOrders[id]? = s.madeOrders[id]? :=
      List.getElem?_set_ne (Ne.symm hid)
    rw [hsame, decide_eq_true hid, Bool.true_and]
    cases ho : s.madeOrders[id]? with
    | none => rfl
    | some o =>
      have hne : o.orderId ≠ order.orderId := by
        rw [hinv.orderId id o ho]
        exact hid
      rw [Option.any_some, Option.any_some, canFill_filled h hne]
      rfl

theorem raises_of_getElem? (hcur : s.madeOrders[id]? = some order) :
    raises s id = (due s order && !canFill s order) := by
  rw [raises, hcur, Option.any_some]

theorem fillable_of_getElem? (hcur : s.madeOrders[id]? = some order) :
    fillable s id = (due s order && canFill s order) := by
  rw [fillable, hcur, Option.any_some]

/-- Which orders raise does not depend on whether another one is filled first. -/
theorem raises_filled (hinv : OrdersInv s) (hcur : s.madeOrders[order.orderId]? = some order)
    (h : Fills s order price qty a a' wallet) (hfill : canFill s order = true) (id : ℕ) :
    raises (s.filled order price qty a a' wallet) id = raises s id := by
  unfold raises
  rw [any_filled hinv hcur h (fun b => !b)]
  by_cases hid : id = order.orderId
  · subst hid
    rw [hcur, Option.any_some, hfill]
    simp
  · rw [decide_eq_true hid, Bool.true_and]

/-! ### Executing the staged orders -/

theorem noFillLost_cons_of_raises (h : raises s id = true) : NoFillLost s (id :: ids) := by
  intro _ j hj
  rw [List.takeWhile_cons_of_neg (by simp [h])] at hj
  cases hj

theorem noFillLost_cons_iff (h : raises s id = false) :
    NoFillLost s (id :: ids) ↔
      NoFillLost s ids ∧ (fillable s id → ∀ j ∈ ids, raises s j = false) := by
  have hexists : (∃ j ∈ id :: ids, raises s j) ↔ ∃ j ∈ ids, raises s j := by
    simp [h]
  have hforall : (∀ j ∈ ids, raises s j = false) ↔ ¬ ∃ j ∈ ids, raises s j := by
    simp
  rw [NoFillLost, NoFillLost, hexists, hforall, List.takeWhile_cons_of_pos (by simp [h]),
    List.forall_mem_cons, imp_and, and_comm]
  exact and_congr_right' imp_not_comm

/-- What executing the staged orders `ids` makes of the backtest `s`: the trades of the orders it
fills are kept, and returned unless an order raises. -/
structure Batch (s : Backtest) (ids : List ℕ) (res : Except PyError (List Trade)) (t : Backtest)
    (trades : List Trade) : Prop where
  inv : OrdersInv t
  executedTrades : t.executedTrades = s.executedTrades
  fills : t.fills = s.fills ++ trades
  ok : ∀ r, res = .ok r → r = trades ∧ ∀ id ∈ ids, raises s id = false
  error : ∀ e, res = .error e →
    (∃ id ∈ ids, raises s id) ∧ (trades = [] ↔ NoFillLost s ids)

/-- An order that is left out, before the others. -/
theorem Batch.skip {t : Backtest} {res : Except PyError (List Trade)} {trades : List Trade}
    (h : Batch s ids res t trades) (hraises : raises s id = false)
    (hfillable : fillable s id = false) : Batch s (id :: ids) res t trades := by
  refine ⟨h.inv, h.executedTrades, h.fills, fun r hr => ?_, fun e he => ?_⟩
  · obtain ⟨htrades, hnone⟩ := h.ok r hr
    exact ⟨htrades, List.forall_mem_cons.2 ⟨hraises, hnone⟩⟩
  · obtain ⟨hsome, hlost⟩ := h.error e he
    obtain ⟨j, hj, hjraises⟩ := hsome
    refine ⟨⟨j, List.mem_cons_of_mem _ hj, hjraises⟩, ?_⟩
    rw [hlost, noFillLost_cons_iff hraises, hfillable]
    simp

/-- An order that is filled, before the others. -/
theorem Batch.fill {t : Backtest} {res : Except PyError (List Trade)} {trades : List Trade}
    (h : Batch (s.filled order price qty a a' wallet) ids res t trades)
    (hinv : OrdersInv s) (hcur : s.madeOrders[order.orderId]? = some order)
    (hf : Fills s order price qty a a' wallet) (hfill : canFill s order = true)
    (hraises : raises s order.orderId = false) (hfillable : fillable s order.orderId = true) :
    Batch s (order.orderId :: ids) (res.map fun r => [tradeOf order s.now price qty] ++ r) t
      (tradeOf order s.now price qty :: trades) := by
  have hstays := raises_filled hinv hcur hf hfill
  refine ⟨h.inv, h.executedTrades, ?_, fun r hr => ?_, fun e he => ?_⟩
  · rw [h.fills]
    exact List.append_assoc _ _ _
  · obtain ⟨r', hr', rfl⟩ := map_eq_ok_iff.1 hr
    obtain ⟨rfl, hnone⟩ := h.ok r' hr'
    exact ⟨rfl, List.forall_mem_cons.2 ⟨hraises, fun j hj => hstays j ▸ hnone j hj⟩⟩
  · rcases res with e' | r'
    · obtain ⟨⟨j, hj, hjraises⟩, -⟩ := h.error e' rfl
      rw [hstays j] at hjraises
      refine ⟨⟨j, List.mem_cons_of_mem _ hj, hjraises⟩,
        iff_of_false (List.cons_ne_nil _ _) fun hlost => ?_⟩
      have hnone := ((noFillLost_cons_iff hraises).1 hlost).2 hfillable j hj
      rw [hjraises] at hnone
      cases hnone
    · cases he

/-- **The loop** returns what it filled, and where it raises it filled nothing exactly if no order
was filled before. -/
theorem exists_batch (hinv : OrdersInv s) (ids : List ℕ) :
    ∃ res t trades, executeStagedOrders ids s = (res, t) ∧ Batch s ids res t trades := by
  induction ids generalizing s with
  | nil =>
    refine ⟨_, _, [], rfl, hinv, rfl, (List.append_nil _).symm, ?_, ?_⟩
    · rintro _ ⟨⟩
      exact ⟨rfl, by simp⟩
    · rintro _ ⟨⟩
  | cons id ids ih =>
    rw [executeStagedOrders, get_bind]
    cases hcur : s.madeOrders[id]? with
    | none =>
      obtain ⟨res, t, trades, hres, h⟩ := ih hinv
      exact ⟨res, t, trades, hres, h.skip (by simp [raises, hcur]) (by simp [fillable, hcur])⟩
    | some order =>
      obtain rfl := hinv.orderId id order hcur
      dsimp only
      have hraises := raises_of_getElem? hcur
      have hfillable := fillable_of_getElem? hcur
      rcases executeStagedOrder_cases (hinv.status _ order hcur) with
        ⟨hdue, he⟩ | ⟨hdue, hfill, e, p, he⟩ | ⟨hdue, hfill, price, qty, a, a', wallet, hf, he⟩
      · obtain ⟨res, t, trades, hres, h⟩ := ih hinv
        rw [hdue, Bool.false_and] at hraises hfillable
        rw [bind_of_ok he]
        rcases res with e | r
        · exact ⟨_, t, trades, bind_of_error hres, h.skip hraises hfillable⟩
        · exact ⟨_, t, trades, bind_of_ok hres, h.skip hraises hfillable⟩
      · rw [hdue, hfill] at hraises
        refine ⟨_, _, [], bind_of_error he, hinv.congr rfl rfl, rfl, (List.append_nil _).symm, ?_,
          fun _ _ => ⟨⟨_, List.mem_cons_self, hraises⟩,
            iff_of_true rfl (noFillLost_cons_of_raises hraises)⟩⟩
        rintro _ ⟨⟩
      · rw [hdue, hfill] at hraises hfillable
        have hopen : order.status = .opened := by
          have hand := Bool.and_eq_true_iff.1 hdue
          exact of_decide_eq_true hand.1
        obtain ⟨res, t, trades, hres, h⟩ := ih (hinv.filled hcur hopen)
        have hall := h.fill hinv hcur hf hfill hraises hfillable
        rw [bind_of_ok he]
        rcases res with e | r
        · exact ⟨_, t, _, bind_of_error hres, hall⟩
        · exact ⟨_, t, _, bind_of_ok hres, hall⟩

/-! ### Recording -/

/-- `executed_trades` has one trade of each filled order, and none of the others. -/
def Recorded (s : Backtest) : Prop :=
  ∀ id, (s.executedTrades.flatMap Prod.snd).countP (fun trade => trade.orderId = id) =
    if s.madeOrders[id]?.map Order.status = some .filled then 1 else 0

theorem OrdersInv.recorded_iff (hinv : OrdersInv s) : Recorded s ↔
    ∀ id, (s.executedTrades.flatMap Prod.snd).countP (fun trade => trade.orderId = id) =
      s.fills.countP fun trade => trade.orderId = id :=
  forall_congr' fun id => by rw [hinv.fills id]

/-- Recording trades adds them to what is recorded. -/
theorem perm_record (trades : List Trade) (d : List (Instrument × List Trade)) :
    ((trades.foldl (fun d trade =>
        dictSet d trade.instrument ((dictGet d trade.instrument).getD [] ++ [trade])) d).flatMap
      Prod.snd).Perm (d.flatMap Prod.snd ++ trades) := by
  induction trades generalizing d with
  | nil => rw [List.append_nil]; rfl
  | cons trade trades ih =>
    have hone : ((dictSet d trade.instrument
        ((dictGet d trade.instrument).getD [] ++ [trade])).flatMap Prod.snd).Perm
          (d.flatMap Prod.snd ++ [trade]) := by
      refine (List.perm_append_right_iff ((dictGet d trade.instrument).getD [])).1 ?_
      refine (perm_flatMap_dictSet d trade.instrument _).trans ?_
      rw [List.append_assoc]
      exact List.perm_append_comm.append_left _
    refine (ih _).trans ?_
    rw [List.append_cons]
    exact hone.append_right trades

theorem recordStateSnapshot_snd (s : Backtest) : ∃ snapshots,
    (recordStateSnapshot s).2 = { s with stateSnapshots := snapshots } := by
  rw [recordStateSnapshot, get_bind]
  cases snapshotBalance s.portfolio s.midPrices with
  | error e => exact ⟨s.stateSnapshots, rfl⟩
  | ok totalBalance => exact ⟨_, rfl⟩

theorem stageForExecution_snd (s : Backtest) (ids : List ℕ) : ∃ orders snapshots,
    (stageForExecution ids s).2 = { s with orders := orders, stateSnapshots := snapshots } := by
  unfold stageForExecution
  split_ifs
  · obtain ⟨snapshots, hs⟩ := recordStateSnapshot_snd { s with orders := s.orders ++ ids }
    exact ⟨_, snapshots, hs⟩
  · exact ⟨s.orders, s.stateSnapshots, rfl⟩

/-- **An update** keeps the records complete exactly if it fills no order before one that raises. -/
theorem recorded_updateState_iff (hinv : OrdersInv s) (hrecorded : Recorded s) :
    OrdersInv (updateState s).2 ∧ (Recorded (updateState s).2 ↔ NoFillLost s s.orders) := by
  obtain ⟨res, t, trades, hres, h⟩ := exists_batch hinv s.orders
  have hcounts := hinv.recorded_iff.1 hrecorded
  rw [updateState, get_bind]
  rcases res with e | r
  · rw [bind_of_error hres]
    refine ⟨h.inv, ?_⟩
    obtain ⟨-, hlost⟩ := h.error e rfl
    rw [h.inv.recorded_iff, ← hlost, h.executedTrades, h.fills]
    constructor
    · intro hall
      refine List.eq_nil_iff_forall_not_mem.2 fun trade htrade => ?_
      have hcount := hall trade.orderId
      rw [List.countP_append, hcounts trade.orderId, Nat.left_eq_add, List.countP_eq_zero] at hcount
      exact hcount trade htrade (decide_eq_true rfl)
    · rintro rfl id
      rw [List.append_nil, hcounts id]
  · rw [bind_of_ok hres]
    obtain ⟨rfl, hnone⟩ := h.ok r rfl
    have hlost : NoFillLost s s.orders := by
      rintro ⟨id, hid, hraises⟩
      rw [hnone id hid] at hraises
      cases hraises
    have hafter : ∀ t', t'.madeOrders = t.madeOrders → t'.fills = t.fills →
        (t'.executedTrades.flatMap Prod.snd).Perm (s.executedTrades.flatMap Prod.snd ++ r) →
        OrdersInv t' ∧ (Recorded t' ↔ NoFillLost s s.orders) := by
      intro t' hmade hfills hperm
      have hinv' := h.inv.congr hmade hfills
      refine ⟨hinv', iff_of_true (hinv'.recorded_iff.2 fun id => ?_) hlost⟩
      rw [hperm.countP_eq, hfills, h.fills, List.countP_append, List.countP_append, hcounts id]
    split_ifs with htrades
    · rw [modify_bind]
      obtain ⟨snapshots, hs⟩ := recordStateSnapshot_snd { t with
        executedTrades := r.foldl (fun d trade =>
          dictSet d trade.instrument ((dictGet d trade.instrument).getD [] ++ [trade]))
          t.executedTrades }
      rw [hs]
      exact hafter _ rfl rfl (h.executedTrades ▸ perm_record r t.executedTrades)
    · refine hafter _ rfl rfl ?_
      rw [of_not_not htrades, List.append_nil, pure_apply, h.executedTrades]

/-- At `update_state`, no order is filled before one that raises. -/
def KeepsFills (s : Backtest) (call : Call) : Prop :=
  call = .updateState → NoFillLost s s.orders

/-- **One call.** -/
theorem recorded_step_iff {call : Call} (hinv : OrdersInv s) (hrecorded : Recorded s)
    (h : step s call = some s') : OrdersInv s' ∧ (Recorded s' ↔ KeepsFills s call) := by
  cases call with
  | makeOrder side orderType instrument qty price =>
    obtain rfl := Option.some.inj h
    suffices hafter : OrdersInv (makeOrder side orderType instrument qty price s).2 ∧
        Recorded (makeOrder side orderType instrument qty price s).2 from
      ⟨hafter.1, iff_of_true hafter.2 fun h => by cases h⟩
    rcases makeOrder_cases side orderType instrument qty price s with ⟨e, he⟩ | ⟨a, wallet, hm, he⟩
    · rw [he]
      exact ⟨hinv, hrecorded⟩
    · rw [he]
      have hinv' := hinv.made hm
      exact ⟨hinv', hinv'.recorded_iff.2 (hinv.recorded_iff.1 hrecorded)⟩
  | stageForExecution ids =>
    simp only [step] at h
    split_ifs at h
    obtain rfl := Option.some.inj h
    obtain ⟨orders, snapshots, hs⟩ := stageForExecution_snd s ids
    rw [hs]
    exact ⟨hinv.congr rfl rfl, iff_of_true hrecorded fun h => by cases h⟩
  | updateState =>
    obtain rfl := Option.some.inj h
    obtain ⟨hinv', hiff⟩ := recorded_updateState_iff hinv hrecorded
    exact ⟨hinv', hiff.trans (by simp [KeepsFills])⟩
  | next now midPrices =>
    obtain rfl := Option.some.inj h
    exact ⟨hinv.congr rfl rfl, iff_of_true hrecorded fun h => by cases h⟩

/-- **Records in every run**: in all its states each filled order has one trade recorded, and no
other order has one, exactly if no `update_state` fills an order before one that raises. -/
theorem allStates_recorded_iff {portfolio : Portfolio} {now : ℚ}
    {midPrices : List (Instrument × ℚ)} {calls : List Call}
    (h : Transition.run step (initial portfolio now midPrices) calls = some s) :
    Transition.AllStates step Recorded (initial portfolio now midPrices) calls ↔
      Transition.AllSteps step KeepsFills (initial portfolio now midPrices) calls := by
  have hinv : OrdersInv (initial portfolio now midPrices) :=
    ⟨fun id o ho => by simp [initial] at ho, fun id o ho => by simp [initial] at ho,
      fun id => by simp [initial]⟩
  refine Transition.allStates_iff_allSteps (I := OrdersInv) (fun s call s' hinv hrecorded hstep => ?_)
    hinv (fun id => by simp [initial]) h
  obtain ⟨hinv', hiff⟩ := recorded_step_iff hinv hrecorded hstep
  exact ⟨fun _ => hinv', hiff⟩

instance (s : Backtest) (call : Call) : Decidable (KeepsFills s call) :=
  inferInstanceAs (Decidable (_ → _))

theorem allStates_recorded_iff_demo :
    ∃ s, Transition.run step (initial demoPortfolio 0 [(demoInstrument, 100)]) demoCalls = some s ∧
      s.fills.length = 1 ∧ Transition.AllStates step Recorded
        (initial demoPortfolio 0 [(demoInstrument, 100)]) demoCalls := by
  have hrun : ((Transition.run step (initial demoPortfolio 0 [(demoInstrument, 100)])
      demoCalls).map fun s => s.fills.length) = some 1 := by
    decide +kernel
  obtain ⟨s, hs, hlength⟩ := Option.map_eq_some_iff.1 hrun
  exact ⟨s, hs, hlength, (allStates_recorded_iff hs).2 (by decide +kernel)⟩

/-- An instrument without a mid price. -/
def pricelessInstrument : Instrument := ⟨"BINANCE", "spot", "ETH-USDT"⟩

/-- A portfolio for both instruments. -/
def lossPortfolio : Portfolio :=
  { demoPortfolio with wallets := demoPortfolio.wallets ++ [⟨⟨"BINANCE", "spot", "ETH"⟩, 0, ∅⟩] }

/-- One update executes a market order for each of them. -/
def lossCalls : List Call :=
  [.makeOrder .buy .market demoInstrument 2 100, .makeOrder .buy .market pricelessInstrument 2 100,
    .stageForExecution [0, 1], .updateState]

/-- The first order is filled, the second one raises, and no trade is recorded. -/
theorem not_recorded_lossCalls :
    ¬ Transition.AllStates step Recorded (initial lossPortfolio 0 [(demoInstrument, 100)])
      lossCalls := by
  intro hall
  have hrun : ((Transition.run step (initial lossPortfolio 0 [(demoInstrument, 100)])
      lossCalls).map fun s => ((s.executedTrades.flatMap Prod.snd).countP
        (fun trade => trade.orderId = 0), s.madeOrders[0]?.map Order.status)) =
      some (0, some .filled) := by
    decide +kernel
  obtain ⟨s, hs, hend⟩ := Option.map_eq_some_iff.1 hrun
  obtain ⟨hcount, hfilled⟩ := Prod.mk.inj hend
  have hrecorded := Transition.of_allStates hall hs 0
  rw [hcount, if_pos hfilled] at hrecorded
  cases hrecorded

end Backtester

end Svoe
