import Svoe.Backtester.Execution
import Mathlib.Algebra.Order.Field.Basic
import Mathlib.Tactic.Positivity

/-!
# Funds are where the orders are

Whatever is called in whatever order, and whether it raises or not, an open order has its amount
locked in the wallet of the asset it gives, and nothing else is locked.

* `Inv.made`, `Inv.filled` : making and filling an order keep the invariant.
* `OfFunds.stageForExecution`, `Accounting.updateState` : a property of the funds is kept by staging
  orders, and by executing them if fills keep it.
* `Accounting.step`, `Inv.step` : all calls keep the invariant.
* `wallets_of_run` : what it says in every run.
-/

namespace Svoe

namespace Backtester

open Raising

/-- A wallet holds no negative amounts, and locks what its open orders need. -/
structure WalletInv (madeOrders : List Order) (w : Wallet) : Prop where
  balance_nonneg : 0 ≤ w.balance
  locked : ∀ id qty, w.locked.lookup id = some qty → 0 ≤ qty ∧ ∃ order,
    madeOrders[id]? = some order ∧ order.status = .opened ∧ order.assetFrom = .ok w.assetInstrument ∧ qty = order.lockedQty

/-- An order is open or filled, an open one has its amount locked, and there is a wallet for what it
receives. -/
structure OrderInv (wallets : List Wallet) (id : ℕ) (order : Order) : Prop where
  orderId : order.orderId = id
  status : order.status = .opened ∨ order.status = .filled
  lockedQty_nonneg : 0 ≤ order.lockedQty
  walletFrom : order.status = .opened → ∃ w ∈ wallets,
    order.assetFrom = .ok w.assetInstrument ∧ w.locked.lookup id = some order.lockedQty
  walletTo : ∃ w ∈ wallets, order.assetTo = .ok w.assetInstrument

/-- What holds between two calls. -/
structure Inv (s : Backtest) : Prop where
  assets_nodup : (s.portfolio.wallets.map Wallet.assetInstrument).Nodup
  wallets : ∀ w ∈ s.portfolio.wallets, WalletInv s.madeOrders w
  madeOrders : ∀ id order, s.madeOrders[id]? = some order →
    OrderInv s.portfolio.wallets id order
  fills : ∀ id, s.fills.countP (fun trade => trade.orderId = id) =
    if s.madeOrders[id]?.map Order.status = some .filled then 1 else 0
  midPrices_pos : ∀ p ∈ s.midPrices, 0 < p.2

variable {s s' : Backtest} {order : Order} {price qty : ℚ} {a a' : AssetInstrument}
  {wallet : Wallet}

theorem received_nonneg {side : OrderSide} (hqty : 0 ≤ qty) (hprice : 0 < price) :
    0 ≤ received side qty price := by
  have hconverted : 0 ≤ converted side qty price := by
    cases side
    · exact div_nonneg hqty hprice.le
    · exact mul_nonneg hqty hprice.le
  have hCOMMISSION : COMMISSION ≤ 1 := by
    rw [COMMISSION]; norm_num
  exact sub_nonneg.2 (mul_le_of_le_one_right hconverted hCOMMISSION)

/-! ### Making an order -/

theorem made_portfolio (h : Makes s order a wallet) :
    (s.made order a wallet).portfolio =
      s.portfolio.modifyWallet a fun w => w.lock order.orderId order.lockedQty :=
  Portfolio.modifyWallet_const (f := fun w => w.lock order.orderId order.lockedQty) h.walletFrom

/-- The orders after one more is made. -/
theorem getElem?_made_iff (h : Makes s order a wallet) {id : ℕ} {o : Order} :
    (s.made order a wallet).madeOrders[id]? = some o ↔
      s.madeOrders[id]? = some o ∨ id = order.orderId ∧ o = order := by
  simp only [Backtest.made, h.orderId, List.getElem?_append, List.getElem?_singleton]
  split_ifs with hlt hzero
  · simp [hlt.ne]
  · have hid : id = s.madeOrders.length := by omega
    simp [hid, eq_comm]
  · have hid : id ≠ s.madeOrders.length := by omega
    simp [hid, List.getElem?_eq_none (not_lt.1 hlt)]

/-- A new order is not filled. -/
theorem countP_fills_made (h : Makes s order a wallet)
    (hfills : ∀ id, s.fills.countP (fun trade => trade.orderId = id) =
      if s.madeOrders[id]?.map Order.status = some .filled then 1 else 0) (id : ℕ) :
    (s.made order a wallet).fills.countP (fun trade => trade.orderId = id) =
      if (s.made order a wallet).madeOrders[id]?.map Order.status = some .filled then 1 else 0 := by
  have hfilled : (s.made order a wallet).madeOrders[id]?.map Order.status = some .filled ↔
      s.madeOrders[id]?.map Order.status = some .filled := by
    simp only [Option.map_eq_some_iff, getElem?_made_iff h]
    constructor
    · rintro ⟨o, ho | ⟨-, rfl⟩, hstatus⟩
      · exact ⟨o, ho, hstatus⟩
      · rw [h.status] at hstatus; cases hstatus
    · rintro ⟨o, ho, hstatus⟩
      exact ⟨o, .inl ho, hstatus⟩
  simp only [hfilled]
  exact hfills id

/-- **Making an order** keeps the invariant. -/
theorem Inv.made (hinv : Inv s) (h : Makes s order a wallet) (hqty : 0 ≤ order.lockedQty) :
    Inv (s.made order a wallet) := by
  have hportfolio := made_portfolio h
  have hassets : (s.made order a wallet).portfolio.wallets.map Wallet.assetInstrument =
      s.portfolio.wallets.map Wallet.assetInstrument := by
    rw [hportfolio]
    exact Portfolio.assets_modifyWallet fun _ => rfl
  -- a wallet afterwards has the asset of one before, and all its locked amounts
  have hafter : ∀ w ∈ s.portfolio.wallets, ∃ w' ∈ (s.made order a wallet).portfolio.wallets,
      w'.assetInstrument = w.assetInstrument ∧
        (∀ id, id ≠ order.orderId → w'.locked.lookup id = w.locked.lookup id) ∧
        (w.assetInstrument = a → w'.locked.lookup order.orderId = some order.lockedQty) := by
    intro w hw
    rw [hportfolio]
    refine ⟨_, Portfolio.mem_modifyWallet.2 ⟨w, hw, rfl⟩, ?_⟩
    split_ifs with ha
    · exact ⟨rfl, fun id hid => Finmap.lookup_insert_of_ne _ hid,
        fun _ => Finmap.lookup_insert _⟩
    · exact ⟨rfl, fun _ _ => rfl, fun ha' => absurd ha' ha⟩
  refine ⟨hassets ▸ hinv.assets_nodup, fun w' hw' => ?_, fun id o ho => ?_, fun id => ?_,
    hinv.midPrices_pos⟩
  · rw [hportfolio] at hw'
    obtain ⟨w, hw, rfl⟩ := Portfolio.mem_modifyWallet.1 hw'
    obtain ⟨hbalance, hlocked⟩ := hinv.wallets w hw
    have hold : ∀ id q, w.locked.lookup id = some q → 0 ≤ q ∧ ∃ o,
        (s.made order a wallet).madeOrders[id]? = some o ∧ o.status = .opened ∧
          o.assetFrom = .ok w.assetInstrument ∧ q = o.lockedQty := fun id q hq => by
      obtain ⟨hnonneg, o, ho, hrest⟩ := hlocked id q hq
      exact ⟨hnonneg, o, (getElem?_made_iff h).2 (.inl ho), hrest⟩
    split_ifs with ha
    · obtain rfl := Portfolio.eq_of_getWallet h.walletFrom hw ha
      refine ⟨sub_nonneg.2 h.enough, fun id q hq => ?_⟩
      by_cases hid : id = order.orderId
      · subst hid
        obtain rfl := Option.some.inj ((Finmap.lookup_insert _).symm.trans hq)
        exact ⟨hqty, order, (getElem?_made_iff h).2 (.inr ⟨rfl, rfl⟩), h.status,
          ha ▸ h.assetFrom, rfl⟩
      · exact hold id q ((Finmap.lookup_insert_of_ne _ hid).symm.trans hq)
    · exact ⟨hbalance, hold⟩
  · rcases (getElem?_made_iff h).1 ho with ho | ⟨rfl, rfl⟩
    · obtain ⟨hid, hstatus, hnonneg, hfrom, w₂, hw₂, hto⟩ := hinv.madeOrders id o ho
      have hlt : id ≠ order.orderId := by
        rw [h.orderId]
        exact (List.getElem?_eq_some_iff.1 ho).1.ne
      refine ⟨hid, hstatus, hnonneg, fun hopen => ?_, ?_⟩
      · obtain ⟨w, hw, hasset, hlookup⟩ := hfrom hopen
        obtain ⟨w', hw', ha', hkeep, -⟩ := hafter w hw
        exact ⟨w', hw', ha' ▸ hasset, (hkeep id hlt).trans hlookup⟩
      · obtain ⟨w', hw', ha', -⟩ := hafter w₂ hw₂
        exact ⟨w', hw', ha' ▸ hto⟩
    · obtain ⟨hmem, hasset⟩ := Portfolio.mem_wallets_of_getWallet h.walletFrom
      obtain ⟨a', w₂, hto, hw₂⟩ := h.walletTo
      obtain ⟨hmem₂, rfl⟩ := Portfolio.mem_wallets_of_getWallet hw₂
      refine ⟨rfl, .inl h.status, hqty, fun _ => ?_, ?_⟩
      · obtain ⟨w', hw', ha', -, hlookup⟩ := hafter wallet hmem
        exact ⟨w', hw', by rw [ha', hasset, h.assetFrom], hlookup hasset⟩
      · obtain ⟨w', hw', ha', -⟩ := hafter w₂ hmem₂
        exact ⟨w', hw', ha' ▸ hto⟩
  · exact countP_fills_made h hinv.fills id

/-! ### Filling an order -/

theorem filled_portfolio (h : Fills s order price qty a a' wallet) :
    (s.filled order price qty a a' wallet).portfolio =
      (s.portfolio.modifyWallet a fun w => w.release order.orderId).modifyWallet a'
        fun w => w.deposit (received order.side qty price) := by
  rw [← Portfolio.modifyWallet_const (f := fun w => w.release order.orderId) h.walletFrom]
  rfl

/-- A wallet after a fill: the order's amount is gone from the wallet it gives, and the wallet it
receives has the proceeds. -/
theorem mem_filled_wallets (h : Fills s order price qty a a' wallet) {w' : Wallet} :
    w' ∈ (s.filled order price qty a a' wallet).portfolio.wallets ↔
      ∃ w ∈ s.portfolio.wallets, w' =
        ⟨w.assetInstrument,
          if w.assetInstrument = a' then w.balance + received order.side qty price else w.balance,
          if w.assetInstrument = a then w.locked.erase order.orderId else w.locked⟩ := by
  rw [filled_portfolio h, Portfolio.mem_modifyWallet]
  simp only [Portfolio.mem_modifyWallet, exists_exists_and_eq_and]
  refine exists_congr fun w => and_congr_right fun _ => ?_
  rw [eq_comm]
  refine Eq.congr_right ?_
  have hasset : (if w.assetInstrument = a then w.release order.orderId else w).assetInstrument =
      w.assetInstrument := by
    split_ifs <;> rfl
  rw [hasset]
  by_cases ha : w.assetInstrument = a <;> by_cases ha' : w.assetInstrument = a'
  · rw [if_pos ha, if_pos ha', if_pos ha', if_pos ha]; rfl
  · rw [if_pos ha, if_neg ha', if_neg ha', if_pos ha]; rfl
  · rw [if_neg ha, if_pos ha', if_pos ha', if_neg ha]; rfl
  · rw [if_neg ha, if_neg ha', if_neg ha', if_neg ha]

/-- The orders after one of them is filled. -/
theorem getElem?_filled_iff (hcur : s.madeOrders[order.orderId]? = some order) {id : ℕ}
    {o : Order} : (s.filled order price qty a a' wallet).madeOrders[id]? = some o ↔
      (id ≠ order.orderId ∧ s.madeOrders[id]? = some o) ∨
        id = order.orderId ∧ o = { order with status := .filled } := by
  have hlt := (List.getElem?_eq_some_iff.1 hcur).1
  simp only [Backtest.filled]
  by_cases hid : id = order.orderId
  · subst hid
    simp [List.getElem?_set_self hlt, eq_comm]
  · simp [List.getElem?_set_ne (Ne.symm hid), hid]

/-- An order that is filled has one fill more. -/
theorem countP_fills_filled (hcur : s.madeOrders[order.orderId]? = some order)
    (hopen : order.status = .opened)
    (hfills : ∀ id, s.fills.countP (fun trade => trade.orderId = id) =
      if s.madeOrders[id]?.map Order.status = some .filled then 1 else 0) (id : ℕ) :
    (s.filled order price qty a a' wallet).fills.countP (fun trade => trade.orderId = id) =
      if (s.filled order price qty a a' wallet).madeOrders[id]?.map Order.status = some .filled
        then 1 else 0 := by
  have hcount : (s.filled order price qty a a' wallet).fills.countP
      (fun trade => trade.orderId = id) = s.fills.countP (fun trade => trade.orderId = id) +
        if order.orderId = id then 1 else 0 := by
    simp only [Backtest.filled, List.countP_append, List.countP_singleton, tradeOf,
      decide_eq_true_eq]
  rw [hcount, hfills id]
  by_cases hid : id = order.orderId
  · subst hid
    rw [(getElem?_filled_iff hcur).2 (.inr ⟨rfl, rfl⟩), hcur]
    simp [hopen]
  · have hsame : (s.filled order price qty a a' wallet).madeOrders[id]? = s.madeOrders[id]? :=
      List.getElem?_set_ne (Ne.symm hid)
    rw [hsame, if_neg (Ne.symm hid), Nat.add_zero]

theorem Inv.price_pos (hinv : Inv s) (h : Fills s order price qty a a' wallet) : 0 < price := by
  have hitem := dictGet_of_getItem h.price
  rw [dictGet, Option.map_eq_some_iff] at hitem
  obtain ⟨p, hp, rfl⟩ := hitem
  exact hinv.midPrices_pos p (List.mem_of_find?_eq_some hp)

theorem Inv.qty_nonneg (hinv : Inv s) (h : Fills s order price qty a a' wallet) : 0 ≤ qty :=
  ((hinv.wallets wallet (Portfolio.mem_wallets_of_getWallet h.walletFrom).1).locked _ _
    h.locked).1

/-- **Filling an open order** keeps the invariant. -/
theorem Inv.filled (hinv : Inv s) (hcur : s.madeOrders[order.orderId]? = some order)
    (hopen : order.status = .opened) (h : Fills s order price qty a a' wallet) :
    Inv (s.filled order price qty a a' wallet) := by
  have hprice := hinv.price_pos h
  have hqty := hinv.qty_nonneg h
  have hassets : (s.filled order price qty a a' wallet).portfolio.wallets.map
      Wallet.assetInstrument = s.portfolio.wallets.map Wallet.assetInstrument := by
    rw [filled_portfolio h]
    exact (Portfolio.assets_modifyWallet
      (f := fun w => w.deposit (received order.side qty price)) fun _ => rfl).trans
        (Portfolio.assets_modifyWallet (f := fun w => w.release order.orderId) fun _ => rfl)
  refine ⟨hassets ▸ hinv.assets_nodup, fun w' hw' => ?_, fun id o ho => ?_, fun id => ?_,
    hinv.midPrices_pos⟩
  · obtain ⟨w, hw, rfl⟩ := (mem_filled_wallets h).1 hw'
    obtain ⟨hbalance, hlocked⟩ := hinv.wallets w hw
    refine ⟨?_, fun id q hq => ?_⟩
    · dsimp only
      split_ifs
      · exact add_nonneg hbalance (received_nonneg hqty hprice)
      · exact hbalance
    · -- what is still locked belongs to another order
      have hkeep : id ≠ order.orderId ∧ w.locked.lookup id = some q := by
        dsimp only at hq
        split_ifs at hq with ha
        · have hid : id ≠ order.orderId := by
            rintro rfl
            rw [Finmap.lookup_erase] at hq
            cases hq
          exact ⟨hid, (Finmap.lookup_erase_ne hid).symm.trans hq⟩
        · refine ⟨?_, hq⟩
          rintro rfl
          obtain ⟨-, o, ho, -, hfrom, -⟩ := hlocked _ q hq
          obtain rfl := Option.some.inj (hcur.symm.trans ho)
          exact ha (Except.ok.inj (hfrom.symm.trans h.assetFrom))
      obtain ⟨hnonneg, o, ho, hrest⟩ := hlocked id q hkeep.2
      exact ⟨hnonneg, o, (getElem?_filled_iff hcur).2 (.inl ⟨hkeep.1, ho⟩), hrest⟩
  · -- a wallet afterwards has the asset of one before, and the amounts of the other orders
    have hafter : ∀ w ∈ s.portfolio.wallets,
        ∃ w' ∈ (s.filled order price qty a a' wallet).portfolio.wallets,
          w'.assetInstrument = w.assetInstrument ∧
            ∀ id, id ≠ order.orderId → w'.locked.lookup id = w.locked.lookup id := by
      intro w hw
      refine ⟨_, (mem_filled_wallets h).2 ⟨w, hw, rfl⟩, rfl, fun id hid => ?_⟩
      dsimp only
      split_ifs
      · exact Finmap.lookup_erase_ne hid
      · rfl
    rcases (getElem?_filled_iff hcur).1 ho with ⟨hid, ho⟩ | ⟨rfl, rfl⟩
    · obtain ⟨hoid, hstatus, hnonneg, hfrom, w₂, hw₂, hto⟩ := hinv.madeOrders id o ho
      refine ⟨hoid, hstatus, hnonneg, fun hopen => ?_, ?_⟩
      · obtain ⟨w, hw, hasset, hlookup⟩ := hfrom hopen
        obtain ⟨w', hw', ha', hkeep⟩ := hafter w hw
        exact ⟨w', hw', ha' ▸ hasset, (hkeep id hid).trans hlookup⟩
      · obtain ⟨w', hw', ha', -⟩ := hafter w₂ hw₂
        exact ⟨w', hw', ha' ▸ hto⟩
    · obtain ⟨-, -, hnonneg, -, w₂, hw₂, hto⟩ := hinv.madeOrders _ order hcur
      obtain ⟨w', hw', ha', -⟩ := hafter w₂ hw₂
      exact ⟨rfl, .inr rfl, hnonneg, nofun, w', hw', ha' ▸ hto⟩
  · exact countP_fills_filled hcur hopen hinv.fills id

/-! ### All calls -/

/-- A property that depends on the wallets, the orders, the fills and the mid prices only. -/
def OfFunds (I : Backtest → Prop) : Prop :=
  ∀ s s', I s → s'.portfolio = s.portfolio → s'.madeOrders = s.madeOrders → s'.fills = s.fills →
    s'.midPrices = s.midPrices → I s'

namespace OfFunds

variable {I : Backtest → Prop}

theorem recordStateSnapshot (hI : OfFunds I) : Triple I recordStateSnapshot (fun _ => I) I :=
  triple_bind (triple_get (Q := fun _ => I) fun _ => id) fun _ =>
    triple_bind (triple_lift (Q := fun _ => I) (fun _ _ h _ => h) fun _ => id) fun _ =>
      triple_modify fun s hs => hI s _ hs rfl rfl rfl rfl

/-- Staging orders keeps what depends on the funds. -/
theorem stageForExecution (hI : OfFunds I) (orders : List ℕ) :
    Triple I (stageForExecution orders) (fun _ => I) I := by
  unfold Backtester.stageForExecution
  split_ifs
  · exact triple_bind (triple_modify (Q := fun _ => I) fun s hs => hI s _ hs rfl rfl rfl rfl)
      fun _ => hI.recordStateSnapshot
  · exact triple_pure fun _ => id

end OfFunds

/-- A property of the funds: it says more than the invariant, depends on the wallets, the orders,
the fills and the mid prices only, and every fill keeps it. -/
structure Accounting (I : Backtest → Prop) : Prop where
  inv : ∀ {s}, I s → Inv s
  congr : ∀ {s s'}, I s → s'.portfolio = s.portfolio → s'.madeOrders = s.madeOrders →
    s'.fills = s.fills → s'.midPrices = s.midPrices → I s'
  filled : ∀ {s order price qty a a' wallet}, I s → s.madeOrders[order.orderId]? = some order →
    order.status = .opened → Fills s order price qty a a' wallet →
    I (s.filled order price qty a a' wallet)

theorem accounting_inv : Accounting Inv where
  inv h := h
  congr hinv hportfolio hmade hfills hmid := by
    refine ⟨?_, ?_, ?_, ?_, ?_⟩
    · rw [hportfolio]; exact hinv.assets_nodup
    · rw [hportfolio, hmade]; exact hinv.wallets
    · rw [hportfolio, hmade]; exact hinv.madeOrders
    · rw [hmade, hfills]; exact hinv.fills
    · rw [hmid]; exact hinv.midPrices_pos
  filled := Inv.filled

namespace Accounting

variable {I : Backtest → Prop}

theorem executeOrder (hI : Accounting I) : Triple
    (fun s => I s ∧ s.madeOrders[order.orderId]? = some order ∧ order.status = .opened)
    (executeOrder order) (fun _ => I) I := by
  rintro s ⟨hs, hcur, hopen⟩
  rcases executeOrder_cases s order with ⟨e, he⟩ | ⟨price, qty, a, a', wallet, h⟩
  · rw [he]
    refine ⟨?_, ?_⟩
    · rintro _ _ ⟨⟩
    · rintro _ _ ⟨⟩; exact hs
  · rw [executeOrder_of_fills h fun _ => ((hI.inv hs).price_pos h).ne']
    refine ⟨?_, ?_⟩
    · rintro _ _ ⟨⟩; exact hI.filled hs hcur hopen h
    · rintro _ _ ⟨⟩

theorem executeStagedOrder (hI : Accounting I) : Triple
    (fun s => I s ∧ s.madeOrders[order.orderId]? = some order)
    (executeStagedOrder order) (fun _ => I) I := by
  unfold Backtester.executeStagedOrder
  split_ifs with hclosed
  · exact triple_pure fun s hs => hs.1
  · have hexecute : Triple (fun s => I s ∧ s.madeOrders[order.orderId]? = some order)
        (do return [← Backtester.executeOrder order]) (fun _ => I) I := by
      refine triple_bind (hI.executeOrder.imp_pre fun s hs => ⟨hs.1, hs.2, ?_⟩) fun _ =>
        triple_pure fun _ => id
      have hstatus := ((hI.inv hs.1).madeOrders _ order hs.2).status
      exact hstatus.resolve_right fun h => hclosed (.inr h)
    cases order.orderType with
    | market => exact hexecute
    | limit =>
      refine triple_bind (triple_get (Q := fun s₀ s => s₀ = s ∧ I s ∧
        s.madeOrders[order.orderId]? = some order) fun s hs => ⟨rfl, hs⟩) fun s₀ => ?_
      cases dictGet s₀.midPrices order.instrument with
      | none => exact triple_lift (fun _ _ _ h => by cases h) fun s hs => hs.2.1
      | some midPrice =>
        dsimp only
        split_ifs
        · exact hexecute.imp_pre fun s hs => hs.2
        · exact triple_pure fun s hs => hs.2.1

theorem executeStagedOrders (hI : Accounting I) (orders : List ℕ) :
    Triple I (executeStagedOrders orders) (fun _ => I) I := by
  induction orders with
  | nil => exact triple_pure fun _ => id
  | cons id orders ih =>
    refine triple_bind (triple_get (Q := fun s₀ s => s₀ = s ∧ I s) fun s hs => ⟨rfl, hs⟩)
      fun s₀ => ?_
    cases hcur : s₀.madeOrders[id]? with
    | none => exact ih.imp_pre fun s hs => hs.2
    | some order =>
      refine triple_bind (hI.executeStagedOrder.imp_pre ?_) fun _ =>
        triple_bind ih fun _ => triple_pure fun _ h => h
      rintro s ⟨rfl, hs⟩
      exact ⟨hs, ((hI.inv hs).madeOrders id order hcur).orderId ▸ hcur⟩

theorem ofFunds (hI : Accounting I) : OfFunds I := fun _ _ => hI.congr

theorem updateState (hI : Accounting I) : Triple I updateState (fun _ => I) I := by
  refine triple_bind (triple_get (Q := fun _ => I) fun _ => id) fun s₀ =>
    triple_bind (hI.executeStagedOrders s₀.orders) fun trades => ?_
  split_ifs
  · exact triple_bind (triple_modify (Q := fun _ => I) fun _ hs =>
      hI.congr hs rfl rfl rfl rfl) fun _ => hI.ofFunds.recordStateSnapshot
  · exact triple_pure fun _ => id

end Accounting

/-- What the calls of a backtest promise: no negative quantities, and positive prices. -/
def Call.Ok : Call → Prop
  | .makeOrder _ _ _ qty price => 0 ≤ qty ∧ 0 < price
  | .next _ midPrices => ∀ p ∈ midPrices, 0 < p.2
  | .stageForExecution _ | .updateState => True

theorem lockedQty_nonneg {side : OrderSide} {orderType : OrderType} {instrument : Instrument}
    (hok : (Call.makeOrder side orderType instrument qty price).Ok) {id : ℕ}
    {status : OrderStatus} :
    0 ≤ (⟨id, orderType, side, instrument, price, qty, status⟩ : Order).lockedQty := by
  cases side
  · exact mul_nonneg hok.2.le hok.1
  · exact hok.1

/-- A property of the funds is kept by every call if making orders and the next prices keep it. -/
theorem Accounting.step {I : Backtest → Prop} (hI : Accounting I) {call : Call} (hok : call.Ok)
    (hs : I s) (h : step s call = some s')
    (hmade : ∀ side orderType instrument qty price,
      call = .makeOrder side orderType instrument qty price → ∀ order a wallet,
        order.instrument = instrument → 0 ≤ order.lockedQty → Makes s order a wallet →
          I (s.made order a wallet))
    (hnext : ∀ now midPrices, call = .next now midPrices →
      I { s with now := now, midPrices := midPrices }) : I s' := by
  cases call with
  | makeOrder side orderType instrument qty price =>
    obtain rfl := Option.some.inj h
    rcases makeOrder_cases side orderType instrument qty price s with ⟨e, he⟩ | ⟨a, wallet, hm, he⟩
    · rw [he]; exact hs
    · rw [he]
      exact hmade side orderType instrument qty price rfl _ a wallet rfl (lockedQty_nonneg hok) hm
  | stageForExecution orders =>
    simp only [Backtester.step] at h
    split_ifs at h
    obtain rfl := Option.some.inj h
    exact (hI.ofFunds.stageForExecution orders).snd hs
  | updateState =>
    obtain rfl := Option.some.inj h
    exact hI.updateState.snd hs
  | next now midPrices =>
    obtain rfl := Option.some.inj h
    exact hnext now midPrices rfl

/-- **Every call keeps the invariant**, whether it raises or not. -/
theorem Inv.step {call : Call} (hinv : Inv s) (hok : call.Ok) (h : step s call = some s') :
    Inv s' := by
  refine accounting_inv.step hok hinv h ?_ ?_
  · rintro side orderType instrument qty price - order a wallet - hqty hm
    exact hinv.made hm hqty
  · rintro now midPrices rfl
    exact ⟨hinv.assets_nodup, hinv.wallets, hinv.madeOrders, hinv.fills, hok⟩

/-- Before the first call. -/
theorem inv_initial {portfolio : Portfolio} {now : ℚ} {midPrices : List (Instrument × ℚ)}
    (hassets : (portfolio.wallets.map Wallet.assetInstrument).Nodup)
    (hwallets : ∀ w ∈ portfolio.wallets, 0 ≤ w.balance ∧ w.locked = ∅)
    (hmid : ∀ p ∈ midPrices, 0 < p.2) : Inv (initial portfolio now midPrices) := by
  refine ⟨hassets, fun w hw => ⟨(hwallets w hw).1, fun id q hq => ?_⟩, fun id o ho => ?_,
    fun id => by simp [initial], hmid⟩
  · rw [(hwallets w hw).2, Finmap.lookup_empty] at hq
    cases hq
  · simp [initial] at ho

theorem inv_of_run {portfolio : Portfolio} {now : ℚ} {midPrices : List (Instrument × ℚ)}
    {calls : List Call} (hassets : (portfolio.wallets.map Wallet.assetInstrument).Nodup)
    (hwallets : ∀ w ∈ portfolio.wallets, 0 ≤ w.balance ∧ w.locked = ∅)
    (hmid : ∀ p ∈ midPrices, 0 < p.2) (hcalls : ∀ call ∈ calls, call.Ok)
    (h : Transition.run Backtester.step (initial portfolio now midPrices) calls = some s) :
    Inv s := by
  have hall : Transition.AllSteps Backtester.step (fun _ call => call.Ok)
      (initial portfolio now midPrices) calls := Transition.allSteps_of_forall hcalls
  exact Transition.invariant_of_allSteps (fun _ _ _ hinv hok hstep => Inv.step hinv hok hstep)
    (inv_initial hassets hwallets hmid) hall h

/-- **Funds in every run**: no negative amounts, an order is locked in one wallet at most and only
while it is open, every open order has its amount locked, and no order is filled twice. -/
theorem wallets_of_run {portfolio : Portfolio} {now : ℚ} {midPrices : List (Instrument × ℚ)}
    {calls : List Call} (hassets : (portfolio.wallets.map Wallet.assetInstrument).Nodup)
    (hwallets : ∀ w ∈ portfolio.wallets, 0 ≤ w.balance ∧ w.locked = ∅)
    (hmid : ∀ p ∈ midPrices, 0 < p.2) (hcalls : ∀ call ∈ calls, call.Ok)
    (h : Transition.run Backtester.step (initial portfolio now midPrices) calls = some s) :
    (∀ w ∈ s.portfolio.wallets, 0 ≤ w.balance ∧
        ∀ id qty, w.locked.lookup id = some qty → 0 ≤ qty) ∧
      (∀ w ∈ s.portfolio.wallets, ∀ w' ∈ s.portfolio.wallets, ∀ id,
        id ∈ w.locked → id ∈ w'.locked → w = w') ∧
      (∀ w ∈ s.portfolio.wallets, ∀ id, id ∈ w.locked →
        ∃ order ∈ s.madeOrders, order.orderId = id ∧ order.status = .opened) ∧
      (∀ order ∈ s.madeOrders, order.status = .opened → ∃ w ∈ s.portfolio.wallets,
        order.assetFrom = .ok w.assetInstrument ∧
          w.locked.lookup order.orderId = some order.lockedQty) ∧
      ∀ id, s.fills.countP (fun trade => trade.orderId = id) ≤ 1 := by
  have hinv := inv_of_run hassets hwallets hmid hcalls h
  have hlocked : ∀ w ∈ s.portfolio.wallets, ∀ id, id ∈ w.locked →
      ∃ order, s.madeOrders[id]? = some order ∧ order.status = .opened ∧
        order.assetFrom = .ok w.assetInstrument := fun w hw id hid => by
    obtain ⟨qty, hqty⟩ := Option.isSome_iff_exists.1 (Finmap.lookup_isSome.2 hid)
    obtain ⟨-, order, horder, hopen, hfrom, -⟩ := (hinv.wallets w hw).locked id qty hqty
    exact ⟨order, horder, hopen, hfrom⟩
  refine ⟨fun w hw => ⟨(hinv.wallets w hw).balance_nonneg, fun id qty hqty =>
    ((hinv.wallets w hw).locked id qty hqty).1⟩, fun w hw w' hw' id hid hid' => ?_,
    fun w hw id hid => ?_, fun order horder hopen => ?_, fun id => ?_⟩
  · obtain ⟨order, horder, -, hfrom⟩ := hlocked w hw id hid
    obtain ⟨order', horder', -, hfrom'⟩ := hlocked w' hw' id hid'
    obtain rfl := Option.some.inj (horder.symm.trans horder')
    exact List.inj_on_of_nodup_map hinv.assets_nodup hw hw'
      (Except.ok.inj (hfrom.symm.trans hfrom'))
  · obtain ⟨order, horder, hopen, -⟩ := hlocked w hw id hid
    exact ⟨order, List.mem_of_getElem? horder, (hinv.madeOrders id order horder).orderId, hopen⟩
  · obtain ⟨id, horder⟩ := List.getElem?_of_mem horder
    obtain ⟨rfl, -, -, hfrom, -⟩ := hinv.madeOrders id order horder
    exact hfrom hopen
  · rw [hinv.fills id]
    split_ifs <;> decide

/-- A wallet with 10000 USDT and one without bitcoin. -/
def demoPortfolio : Portfolio where
  wallets := [⟨⟨"BINANCE", "spot", "USDT"⟩, 10000, ∅⟩, ⟨⟨"BINANCE", "spot", "BTC"⟩, 0, ∅⟩]
  quote := ⟨"BINANCE", "spot", "USDT"⟩

/-- The instrument they trade. -/
def demoInstrument : Instrument := ⟨"BINANCE", "spot", "BTC-USDT"⟩

/-- Two orders: the first is staged twice and executed, the other asks for too much. -/
def demoCalls : List Call :=
  [.makeOrder .buy .market demoInstrument 2 100, .makeOrder .sell .limit demoInstrument 1 100,
    .stageForExecution [0, 0], .updateState, .next 1 [(demoInstrument, 110)], .updateState]

theorem demoPortfolio_unlocked : ∀ w ∈ demoPortfolio.wallets, 0 ≤ w.balance ∧ w.locked = ∅ := by
  intro w hw
  simp only [demoPortfolio, List.mem_cons, List.not_mem_nil, or_false] at hw
  rcases hw with rfl | rfl <;> exact ⟨by norm_num, rfl⟩

theorem wallets_of_run_demo :
    ∃ s, Transition.run Backtester.step (initial demoPortfolio 0 [(demoInstrument, 100)]) demoCalls =
        some s ∧ s.fills.length = 1 ∧
      ∀ id, s.fills.countP (fun trade => trade.orderId = id) ≤ 1 := by
  have hrun : ((Transition.run Backtester.step (initial demoPortfolio 0 [(demoInstrument, 100)])
      demoCalls).map fun s => s.fills.length) = some 1 := by
    decide +kernel
  obtain ⟨s, hs, hlength⟩ := Option.map_eq_some_iff.1 hrun
  have hcalls : ∀ call ∈ demoCalls, call.Ok := by
    intro call hcall
    simp only [demoCalls, List.mem_cons, List.not_mem_nil, or_false] at hcall
    rcases hcall with rfl | rfl | rfl | rfl | rfl | rfl <;> simp [Call.Ok]
  obtain ⟨-, -, -, -, hfills⟩ :=
    wallets_of_run (by decide +kernel) demoPortfolio_unlocked (by decide +kernel) hcalls hs
  exact ⟨s, hs, hlength, hfills⟩

end Backtester

end Svoe
