import Svoe.Backtester.Record

/-!
# Staging and updating without an exception

When `stage_for_execution` and `update_state` return, and what they have done then.

* `balanced_congr` : whether the total balance can be computed depends on the assets only.
* `executes_of_ok` : the loop over the staged orders.
* `updateState_isOk_iff`, `updates_of_ok` : updates.
-/

namespace Svoe

namespace Backtester

open Raising

/-! ### Snapshots -/

/-- The total balance of the portfolio can be computed. -/
def Balanced (p : Portfolio) (midPrices : List (Instrument × ℚ)) : Prop :=
  ∃ total, snapshotBalance p midPrices = .ok total

/-- The snapshot of a portfolio. -/
def IsSnapshot (p : Portfolio) (midPrices : List (Instrument × ℚ)) (now : ℚ)
    (snapshot : Snapshot) : Prop :=
  ∃ total, snapshotBalance p midPrices = .ok total ∧ snapshot = ⟨p, midPrices, now, total⟩

variable {s s' t : Backtest} {order : Order} {price qty : ℚ} {a a' : AssetInstrument}
  {wallet : Wallet} {id : ℕ} {ids : List ℕ} {trades : List Trade} {p p' : Portfolio}
  {midPrices : List (Instrument × ℚ)}

/-- There is exactly one wallet of the asset. -/
theorem exists_getWallet_iff : (∃ w, p.getWallet a = .ok w) ↔
    (p.wallets.map Wallet.assetInstrument).count a = 1 := by
  have hcount : (p.wallets.map Wallet.assetInstrument).count a =
      (p.wallets.filter fun w => w.assetInstrument = a).length := by
    rw [List.count, List.countP_map, List.countP_eq_length_filter]
    rfl
  rw [hcount, Portfolio.getWallet]
  generalize p.wallets.filter (fun w => w.assetInstrument = a) = ws
  rcases ws with _ | ⟨w, _ | ⟨w', ws⟩⟩ <;> simp

/-- A loop returns if no round of it raises. -/
theorem exists_foldlM_eq_ok_iff {ε α β : Type} {f : β → α → Except ε β} {P : α → Prop}
    (h : ∀ b a, (∃ b', f b a = .ok b') ↔ P a) (l : List α) (b : β) :
    (∃ b', l.foldlM f b = .ok b') ↔ ∀ a ∈ l, P a := by
  induction l generalizing b with
  | nil => simp [pure, Except.pure]
  | cons a l ih =>
    rw [List.forall_mem_cons, ← h b a]
    simp only [List.foldlM_cons, bind_eq_ok_iff]
    constructor
    · rintro ⟨b', b₁, hb₁, hb'⟩
      exact ⟨⟨b₁, hb₁⟩, (ih b₁).1 ⟨b', hb'⟩⟩
    · rintro ⟨⟨b₁, hb₁⟩, hl⟩
      obtain ⟨b', hb'⟩ := (ih b₁).2 hl
      exact ⟨b', b₁, hb₁, hb'⟩

/-- The quote asset has a wallet, the others make instruments with it, and have one wallet each
where their instruments have a price. -/
theorem balanced_iff : Balanced p midPrices ↔
    (p.wallets.map Wallet.assetInstrument).count p.quote = 1 ∧
      ∀ a ∈ p.wallets.map Wallet.assetInstrument, a = p.quote ∨
        ∃ instrument, fromAssetInstruments a p.quote = .ok instrument ∧
          (dictGet midPrices instrument = none ∨
            (p.wallets.map Wallet.assetInstrument).count a = 1) := by
  simp only [Balanced, snapshotBalance, bind_eq_ok_iff]
  rw [← exists_getWallet_iff, List.forall_mem_map, ← exists_and_right, exists_comm]
  simp only [exists_and_left]
  refine exists_congr fun quoteWallet => and_congr_right fun _ => ?_
  refine exists_foldlM_eq_ok_iff (fun total wallet => ?_) _ _
  -- one round of the loop over the wallets
  rw [← exists_getWallet_iff]
  split_ifs with hquote
  · exact iff_of_true ⟨total, rfl⟩ (.inl hquote)
  · rw [or_iff_right hquote]
    cases fromAssetInstruments wallet.assetInstrument p.quote with
    | error e => exact iff_of_false (by rintro ⟨_, h⟩; cases h) (by rintro ⟨_, h, -⟩; cases h)
    | ok instrument =>
      simp only [bind_eq_ok_iff, Except.ok.injEq, exists_eq_left']
      cases dictGet midPrices instrument with
      | none => exact iff_of_true ⟨total, rfl⟩ (.inl rfl)
      | some midPrice =>
        rw [or_iff_right (by simp)]
        simp only [bind_eq_ok_iff]
        constructor
        · rintro ⟨_, w, hw, -⟩
          exact ⟨w, hw⟩
        · rintro ⟨w, hw⟩
          exact ⟨_, w, hw, rfl⟩

/-- Whether the total balance can be computed depends on the assets only. -/
theorem balanced_congr
    (hassets : p'.wallets.map Wallet.assetInstrument = p.wallets.map Wallet.assetInstrument)
    (hquote : p'.quote = p.quote) : Balanced p' midPrices ↔ Balanced p midPrices := by
  rw [balanced_iff, balanced_iff, hassets, hquote]

theorem recordStateSnapshot_of_ok {total : ℚ}
    (h : snapshotBalance s.portfolio s.midPrices = .ok total) :
    recordStateSnapshot s = (.ok (), { s with
      stateSnapshots := s.stateSnapshots ++ [⟨s.portfolio, s.midPrices, s.now, total⟩] }) := by
  rw [recordStateSnapshot, get_bind, h]
  rfl

/-- Recording a snapshot returns if the total balance can be computed. -/
theorem recordStateSnapshot_eq_ok_iff : recordStateSnapshot s = (.ok (), t) ↔
    ∃ snapshot, IsSnapshot s.portfolio s.midPrices s.now snapshot ∧
      t = { s with stateSnapshots := s.stateSnapshots ++ [snapshot] } := by
  constructor
  · intro h
    cases hbalance : snapshotBalance s.portfolio s.midPrices with
    | error e =>
      rw [recordStateSnapshot, get_bind, hbalance] at h
      cases h
    | ok total =>
      rw [recordStateSnapshot_of_ok hbalance] at h
      exact ⟨_, ⟨total, hbalance, rfl⟩, (Prod.mk.inj h).2.symm⟩
  · rintro ⟨_, ⟨total, hbalance, rfl⟩, rfl⟩
    exact recordStateSnapshot_of_ok hbalance

theorem stageForExecution_eq (hne : ids ≠ []) :
    stageForExecution ids s = recordStateSnapshot { s with orders := s.orders ++ ids } := by
  rw [stageForExecution, if_pos hne]
  rfl

/-! ### The loop over the staged orders -/

/-- The order `id` is open, and does not wait for another price. -/
def dueAt (s : Backtest) (id : ℕ) : Bool := s.madeOrders[id]?.any (due s)

/-- What executing the staged orders `ids` has done when it returns: the trades are at the mid
prices, and of the orders none is due any more. -/
structure Executes (s : Backtest) (ids : List ℕ) (trades : List Trade) (t : Backtest) : Prop where
  inv : OrdersInv t
  frame : t = { s with
    portfolio := t.portfolio, madeOrders := t.madeOrders, fills := s.fills ++ trades }
  assets : t.portfolio.wallets.map Wallet.assetInstrument =
    s.portfolio.wallets.map Wallet.assetInstrument
  quote : t.portfolio.quote = s.portfolio.quote
  priced : ∀ trade ∈ trades, trade.orderId ∈ ids ∧ trade.timestamp = s.now ∧
    dictGet s.midPrices trade.instrument = some trade.price
  due_of_due : ∀ id, dueAt t id → dueAt s id
  settled : ∀ id ∈ ids, dueAt t id = false
  nil_iff : trades = [] ↔ ∀ id ∈ ids, dueAt s id = false

theorem executes_nil (hinv : OrdersInv s) : Executes s [] [] s where
  inv := hinv
  frame := by simp
  assets := rfl
  quote := rfl
  priced := by simp
  due_of_due _ h := h
  settled := by simp
  nil_iff := by simp

/-- An order that is not due is left out. -/
theorem Executes.skip (h : Executes s ids trades t) (hdue : dueAt s id = false) :
    Executes s (id :: ids) trades t := by
  refine ⟨h.inv, h.frame, h.assets, h.quote, fun trade htrade => ?_, h.due_of_due,
    List.forall_mem_cons.2 ⟨?_, h.settled⟩, ?_⟩
  · obtain ⟨hid, hprice⟩ := h.priced trade htrade
    exact ⟨List.mem_cons_of_mem _ hid, hprice⟩
  · exact Bool.eq_false_iff.2 fun hdue' => by simp [h.due_of_due id hdue'] at hdue
  · rw [h.nil_iff, List.forall_mem_cons, and_iff_right hdue]

/-- After a fill, an order is due if it was due and is another one. -/
theorem dueAt_filled (hinv : OrdersInv s) (hcur : s.madeOrders[order.orderId]? = some order)
    (hf : Fills s order price qty a a' wallet) (id : ℕ) :
    dueAt (s.filled order price qty a a' wallet) id = (id ≠ order.orderId && dueAt s id) := by
  have hany : ((s.filled order price qty a a' wallet).madeOrders[id]?.any fun o =>
        due (s.filled order price qty a a' wallet) o && true) =
      (id ≠ order.orderId && s.madeOrders[id]?.any fun o => due s o && true) :=
    any_filled hinv hcur hf fun _ => true
  simp only [Bool.and_true] at hany
  exact hany

/-- A due order is filled. -/
theorem Executes.fill (hinv : OrdersInv s) (hcur : s.madeOrders[order.orderId]? = some order)
    (hdue : due s order = true) (hf : Fills s order price qty a a' wallet)
    (h : Executes (s.filled order price qty a a' wallet) ids trades t) :
    Executes s (order.orderId :: ids) (tradeOf order s.now price qty :: trades) t := by
  have hdueAt := dueAt_filled hinv hcur hf
  have hbefore : dueAt s order.orderId = true := by
    rw [dueAt, hcur, Option.any_some, hdue]
  refine ⟨h.inv, ?_, h.assets.trans ?_, h.quote, List.forall_mem_cons.2 ⟨?_, fun trade htrade => ?_⟩,
    fun id hid => ?_, List.forall_mem_cons.2 ⟨?_, h.settled⟩, ?_⟩
  · rw [h.frame]
    simp [Backtest.filled]
  · rw [filled_portfolio hf]
    refine (Portfolio.assets_modifyWallet ?_).trans (Portfolio.assets_modifyWallet ?_)
    · exact fun _ => rfl
    · exact fun _ => rfl
  · exact ⟨List.mem_cons_self, rfl, dictGet_of_getItem hf.price⟩
  · obtain ⟨hid, hprice⟩ := h.priced trade htrade
    exact ⟨List.mem_cons_of_mem _ hid, hprice⟩
  · have hid := h.due_of_due id hid
    rw [hdueAt] at hid
    exact (Bool.and_eq_true_iff.1 hid).2
  · refine Bool.eq_false_iff.2 fun hid => ?_
    have hid := h.due_of_due _ hid
    rw [hdueAt] at hid
    simp at hid
  · refine iff_of_false (List.cons_ne_nil _ _) fun hall => ?_
    rw [hall order.orderId List.mem_cons_self] at hbefore
    cases hbefore

/-- **The loop over the staged orders** where it returns. -/
theorem executes_of_ok (hinv : OrdersInv s) (h : executeStagedOrders ids s = (.ok trades, t)) :
    Executes s ids trades t := by
  induction ids generalizing s trades with
  | nil =>
    obtain ⟨htrades, rfl⟩ := Prod.mk.inj h
    obtain rfl := Except.ok.inj htrades
    exact executes_nil hinv
  | cons id ids ih =>
    rw [executeStagedOrders, get_bind] at h
    cases hcur : s.madeOrders[id]? with
    | none =>
      rw [hcur] at h
      exact (ih hinv h).skip (by rw [dueAt, hcur, Option.any_none])
    | some order =>
      obtain rfl := hinv.orderId id order hcur
      rw [hcur] at h
      dsimp only at h
      rcases executeStagedOrder_cases (hinv.status _ order hcur) with
        ⟨hdue, he⟩ | ⟨-, -, e, p, he⟩ | ⟨hdue, -, price, qty, a, a', wallet, hf, he⟩
      · rw [bind_of_ok he] at h
        rcases hres : executeStagedOrders ids s with ⟨e | res, u⟩
        · rw [bind_of_error hres] at h
          cases h
        · rw [bind_of_ok hres] at h
          obtain ⟨htrades, rfl⟩ := Prod.mk.inj h
          obtain rfl := Except.ok.inj htrades
          exact (ih hinv hres).skip (by rw [dueAt, hcur, Option.any_some, hdue])
      · rw [bind_of_error he] at h
        cases h
      · rw [bind_of_ok he] at h
        have hopen : order.status = .opened := by
          have hand := Bool.and_eq_true_iff.1 hdue
          exact of_decide_eq_true hand.1
        rcases hres : executeStagedOrders ids (s.filled order price qty a a' wallet) with ⟨e | res, u⟩
        · rw [bind_of_error hres] at h
          cases h
        · rw [bind_of_ok hres] at h
          obtain ⟨htrades, rfl⟩ := Prod.mk.inj h
          obtain rfl := Except.ok.inj htrades
          exact (ih (hinv.filled hcur hopen) hres).fill hinv hcur hdue hf

/-- The loop returns if no order raises. -/
theorem executeStagedOrders_isOk_iff (hinv : OrdersInv s) :
    (∃ trades t, executeStagedOrders ids s = (.ok trades, t)) ↔ ∀ id ∈ ids, raises s id = false := by
  obtain ⟨res, t, trades, hres, h⟩ := exists_batch hinv ids
  rw [hres]
  rcases res with e | r
  · obtain ⟨⟨id, hid, hraises⟩, -⟩ := h.error e rfl
    refine iff_of_false (by rintro ⟨_, _, h⟩; cases h) fun hall => ?_
    rw [hall id hid] at hraises
    cases hraises
  · exact iff_of_true ⟨r, t, rfl⟩ (h.ok r rfl).2

/-! ### Updates -/

/-- Add trades to those of their instruments. -/
def recordTrades (executedTrades : List (Instrument × List Trade)) (trades : List Trade) :
    List (Instrument × List Trade) :=
  trades.foldl (fun d trade =>
    dictSet d trade.instrument ((dictGet d trade.instrument).getD [] ++ [trade])) executedTrades

/-- What an update has done when it returns. -/
structure Updates (s : Backtest) (trades : List Trade) (t : Backtest) : Prop where
  inv : OrdersInv t
  now : t.now = s.now
  midPrices : t.midPrices = s.midPrices
  orders : t.orders = s.orders
  fills : t.fills = s.fills ++ trades
  executedTrades : t.executedTrades = recordTrades s.executedTrades trades
  priced : ∀ trade ∈ trades, trade.orderId ∈ s.orders ∧ trade.timestamp = s.now ∧
    dictGet s.midPrices trade.instrument = some trade.price
  settled : ∀ id ∈ t.orders, dueAt t id = false
  snapshots : ∃ snapshots, t.stateSnapshots = s.stateSnapshots ++ snapshots ∧
    List.Forall₂ (fun p snapshot => IsSnapshot p s.midPrices s.now snapshot)
      (if trades = [] then [] else [t.portfolio]) snapshots

/-- The update when the loop returns without a trade. -/
theorem updateState_of_nil (h : executeStagedOrders s.orders s = (.ok [], t)) :
    updateState s = (.ok (), t) := by
  rw [updateState, get_bind, bind_of_ok h]
  rfl

/-- The update when the loop returns trades. -/
theorem updateState_of_ne_nil (h : executeStagedOrders s.orders s = (.ok trades, t))
    (hne : trades ≠ []) : updateState s =
      recordStateSnapshot { t with executedTrades := recordTrades t.executedTrades trades } := by
  rw [updateState, get_bind, bind_of_ok h, if_pos hne]
  rfl

theorem updateState_of_error {e : PyError} (h : executeStagedOrders s.orders s = (.error e, t)) :
    updateState s = (.error e, t) := by
  rw [updateState, get_bind, bind_of_error h]

/-- **When an update returns**: no staged order raises, and the total balance can be computed if one
of them is due. -/
def Updatable (s : Backtest) : Prop :=
  (∀ id ∈ s.orders, raises s id = false) ∧
    ((∃ id ∈ s.orders, dueAt s id) → Balanced s.portfolio s.midPrices)

theorem updateState_isOk_iff (hinv : OrdersInv s) :
    (∃ t, updateState s = (.ok (), t)) ↔ Updatable s := by
  rw [Updatable, ← executeStagedOrders_isOk_iff hinv]
  rcases hres : executeStagedOrders s.orders s with ⟨e | trades, u⟩
  · rw [updateState_of_error hres]
    exact iff_of_false (by rintro ⟨_, h⟩; cases h) (by rintro ⟨⟨_, _, h⟩, -⟩; cases h)
  · have hexec := executes_of_ok hinv hres
    rw [and_iff_right ⟨trades, u, rfl⟩]
    by_cases hnil : trades = []
    · subst hnil
      rw [updateState_of_nil hres]
      refine iff_of_true ⟨u, rfl⟩ ?_
      rintro ⟨id, hid, hdue⟩
      rw [hexec.nil_iff.1 rfl id hid] at hdue
      cases hdue
    · have hdue : ∃ id ∈ s.orders, dueAt s id := by
        by_contra hnone
        exact hnil (hexec.nil_iff.2 fun id hid =>
          Bool.eq_false_iff.2 fun hdue => hnone ⟨id, hid, hdue⟩)
      have hmid : u.midPrices = s.midPrices := by rw [hexec.frame]
      rw [updateState_of_ne_nil hres hnil, forall_prop_of_true hdue,
        ← balanced_congr hexec.assets hexec.quote, ← hmid]
      constructor
      · rintro ⟨t, ht⟩
        obtain ⟨_, ⟨total, htotal, -⟩, -⟩ := recordStateSnapshot_eq_ok_iff.1 ht
        exact ⟨total, htotal⟩
      · rintro ⟨total, htotal⟩
        exact ⟨_, recordStateSnapshot_eq_ok_iff.2 ⟨_, ⟨total, htotal, rfl⟩, rfl⟩⟩

/-- **What an update does** when it returns. -/
theorem updates_of_ok (hinv : OrdersInv s) (h : updateState s = (.ok (), t)) :
    ∃ trades, Updates s trades t := by
  rcases hres : executeStagedOrders s.orders s with ⟨e | trades, u⟩
  · rw [updateState_of_error hres] at h
    cases h
  · have hexec := executes_of_ok hinv hres
    have hframe := hexec.frame
    have hafter : ∀ t : Backtest, t = { u with
          executedTrades := t.executedTrades, stateSnapshots := t.stateSnapshots } →
        t.executedTrades = recordTrades s.executedTrades trades →
        (∃ snapshots, t.stateSnapshots = s.stateSnapshots ++ snapshots ∧
          List.Forall₂ (fun p snapshot => IsSnapshot p s.midPrices s.now snapshot)
            (if trades = [] then [] else [t.portfolio]) snapshots) →
        Updates s trades t := by
      intro t ht hrecorded hsnapshots
      have horders : t.orders = s.orders := by rw [ht, hframe]
      refine ⟨?_, ?_, ?_, horders, ?_, hrecorded, hexec.priced, fun id hid => ?_, hsnapshots⟩
      · exact hexec.inv.congr (by rw [ht]) (by rw [ht])
      · rw [ht, hframe]
      · rw [ht, hframe]
      · rw [ht, hframe]
      · rw [ht]
        exact hexec.settled id (horders ▸ hid)
    refine ⟨trades, ?_⟩
    by_cases hnil : trades = []
    · subst hnil
      rw [updateState_of_nil hres] at h
      obtain rfl := (Prod.mk.inj h).2
      have hsnapshots := congrArg Backtest.stateSnapshots hframe
      exact hafter u rfl (by rw [hframe]; rfl)
        ⟨[], hsnapshots.trans (List.append_nil _).symm, .nil⟩
    · rw [updateState_of_ne_nil hres hnil] at h
      obtain ⟨snapshot, hsnapshot, rfl⟩ := recordStateSnapshot_eq_ok_iff.1 h
      refine hafter _ rfl ?_ ⟨[snapshot], ?_, ?_⟩
      · rw [hframe]
      · rw [hframe]
      · rw [if_neg hnil]
        refine .cons ?_ .nil
        rw [hframe] at hsnapshot
        exact hsnapshot

/-- Nothing is lost by an update that returns. -/
theorem recorded_of_updateState (hinv : OrdersInv s) (hrecorded : Recorded s)
    (h : updateState s = (.ok (), t)) : Recorded t := by
  obtain ⟨hraises, -⟩ := (updateState_isOk_iff hinv).1 ⟨t, h⟩
  have hiff := (recorded_updateState_iff hinv hrecorded).2
  rw [h] at hiff
  refine hiff.2 ?_
  rintro ⟨id, hid, hid'⟩
  rw [hraises id hid] at hid'
  cases hid'

end Backtester

end Svoe
