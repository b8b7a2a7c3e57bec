import Svoe.L2Book.OrderBook

/-!
# Applying L2 events to the book

`cryptotickUpdateState` and `cryptofeedUpdateState` are the two update functions of
`l2_snapshot_fd/utils.py`.  A cryptotick event treats every price level on its own, so its effect
on the book is the effect of `levelAfter` on each level:

* `lookup_replay_of_inited`: replaying events from an initialised state folds `levelAfter` over
  every level;
* `replay_of_not_inited`: before the first SNAPSHOT nothing happens;
* `replay_orderBook_eq_of_snapshot`: from a SNAPSHOT on, the past is forgotten.
-/

namespace Svoe

/-! ### Events and state -/

/-- `update_type` of a cryptotick event. -/
inductive UpdateType where
  | add
  | set
  | snapshot
  | sub
  deriving DecidableEq, Repr

/-- An event of `CryptotickL2BookIncrementalData`. -/
structure CryptotickEvent where
  timestamp : ℚ
  receiptTimestamp : ℚ
  updateType : UpdateType
  orders : List Order
  deriving DecidableEq

/-- An event of `CryptofeedL2BookIncrementalData`. -/
structure CryptofeedEvent where
  timestamp : ℚ
  receiptTimestamp : ℚ
  delta : Bool
  orders : List Order
  deriving DecidableEq

/-- `_State` of the L2 snapshot feature.  `noPriceWithZeroSize` is the only entry
`data_inconsistencies` can have. -/
structure L2State where
  timestamp : ℚ := -1
  receiptTimestamp : ℚ := -1
  orderBook : OrderBook := .empty
  noPriceWithZeroSize : ℕ := 0
  inited : Bool := false
  obCount : ℕ := 0
  lastEmittedTs : ℚ := -1
  deriving DecidableEq

/-! ### Cryptotick -/

/-- What an order of the given update type and size does to its level: ADD and SNAPSHOT add to
it, SET assigns it (and deletes a zero), SUB subtracts from a present level (and deletes a zero). -/
def UpdateType.onLevel : UpdateType → ℚ → Option ℚ → Option ℚ
  | .add, size, some cur => some (cur + size)
  | .add, size, none => some size
  | .snapshot, size, some cur => some (cur + size)
  | .snapshot, size, none => some size
  | .set, size, _ => if size = 0 then none else some size
  -- a SUB on a missing price is only counted and printed
  | .sub, _, none => none
  | .sub, size, some cur => if cur - size = 0 then none else some (cur - size)

/-- One order of an event, applied to the book. -/
def applyOrder (updateType : UpdateType) (b : OrderBook) (o : Order) : OrderBook :=
  b.alter o.side o.price (updateType.onLevel o.size)

/-- `cryptotick_update_state`; the flag says that the event was skipped. -/
def cryptotickUpdateState (state : L2State) (event : CryptotickEvent) : L2State × Bool :=
  if event.updateType ≠ .snapshot ∧ state.inited = false then
    (state, true)
  else
    -- a SNAPSHOT resets the order book
    let state := if event.updateType = .snapshot then
        { state with inited := true, orderBook := .empty, obCount := state.obCount + 1 }
      else state
    ({ state with
        orderBook := event.orders.foldl (applyOrder event.updateType) state.orderBook
        timestamp := event.timestamp
        receiptTimestamp := event.receiptTimestamp }, false)

/-- `cryptotick_update_state` over a list of events. -/
def replay (state : L2State) (events : List CryptotickEvent) : L2State :=
  events.foldl (fun st e => (cryptotickUpdateState st e).1) state

/-! ### Cryptofeed -/

/-- One order of a cryptofeed event: a zero size deletes the level, and is an inconsistency when
there is none. -/
def cryptofeedOrder (state : L2State) (o : Order) : L2State :=
  if o.size = 0 then
    if (state.orderBook.lookup o.side o.price).isSome then
      { state with orderBook := state.orderBook.alter o.side o.price fun _ => none }
    else { state with noPriceWithZeroSize := state.noPriceWithZeroSize + 1 }
  else { state with orderBook := state.orderBook.alter o.side o.price fun _ => some o.size }

/-- `cryptofeed_update_state`; the flag says that the event was skipped. -/
def cryptofeedUpdateState (state : L2State) (event : CryptofeedEvent) : L2State × Bool :=
  if event.delta = true ∧ state.inited = false then
    (state, true)
  else
    let state := if event.delta = false then
        { state with inited := true, orderBook := .empty, obCount := state.obCount + 1 }
      else state
    ({ event.orders.foldl cryptofeedOrder state with
        timestamp := event.timestamp
        receiptTimestamp := event.receiptTimestamp }, false)

theorem cryptofeedUpdateState_of_skip {state : L2State} {e : CryptofeedEvent}
    (h : e.delta = true) (hi : state.inited = false) :
    cryptofeedUpdateState state e = (state, true) := if_pos ⟨h, hi⟩

theorem cryptofeedUpdateState_of_reset (state : L2State) {e : CryptofeedEvent}
    (h : e.delta = false) :
    cryptofeedUpdateState state e = ({ e.orders.foldl cryptofeedOrder { state with
        inited := true, orderBook := .empty, obCount := state.obCount + 1 } with
      timestamp := e.timestamp
      receiptTimestamp := e.receiptTimestamp }, false) := by
  simp [cryptofeedUpdateState, h]

theorem cryptofeedUpdateState_of_delta {state : L2State} {e : CryptofeedEvent}
    (h : e.delta = true) (hi : state.inited = true) :
    cryptofeedUpdateState state e = ({ e.orders.foldl cryptofeedOrder state with
      timestamp := e.timestamp
      receiptTimestamp := e.receiptTimestamp }, false) := by
  simp [cryptofeedUpdateState, h, hi]

/-! ### One level at a time -/

/-- The orders of an event as one level sees them. -/
def levelOrders (updateType : UpdateType) (orders : List Order) (s : Side) (p : ℚ)
    (cur : Option ℚ) : Option ℚ :=
  orders.foldl (fun cur o => if s = o.side ∧ p = o.price then updateType.onLevel o.size cur
    else cur) cur

/-- The sizes of the orders on a level. -/
def sizesAt (orders : List Order) (s : Side) (p : ℚ) : List ℚ :=
  (orders.filter fun o => s = o.side ∧ p = o.price).map Order.size

/-- A level only sees the sizes of its orders. -/
theorem levelOrders_eq_foldl (updateType : UpdateType) (orders : List Order) (s : Side) (p : ℚ)
    (cur : Option ℚ) : levelOrders updateType orders s p cur =
      (sizesAt orders s p).foldl (fun cur size => updateType.onLevel size cur) cur := by
  rw [levelOrders, sizesAt]
  induction orders generalizing cur with
  | nil => rfl
  | cons o os ih =>
    rw [List.foldl_cons, ih]
    by_cases ho : s = o.side ∧ p = o.price
    · rw [if_pos ho, List.filter_cons_of_pos (by simpa using ho), List.map_cons, List.foldl_cons]
    · rw [if_neg ho, List.filter_cons_of_neg (by simpa using ho)]

/-- An event as one level of an initialised book sees it. -/
def levelEvent (s : Side) (p : ℚ) (cur : Option ℚ) (event : CryptotickEvent) : Option ℚ :=
  levelOrders event.updateType event.orders s p
    (if event.updateType = .snapshot then none else cur)

/-- A run of events as one level of an initialised book sees it. -/
def levelAfter (events : List CryptotickEvent) (s : Side) (p : ℚ) (cur : Option ℚ) : Option ℚ :=
  events.foldl (levelEvent s p) cur

theorem levelAfter_append (es es' : List CryptotickEvent) (s : Side) (p : ℚ) (cur : Option ℚ) :
    levelAfter (es ++ es') s p cur = levelAfter es' s p (levelAfter es s p cur) :=
  List.foldl_append

@[simp] theorem replay_nil (state : L2State) : replay state [] = state := rfl

theorem replay_cons (state : L2State) (e : CryptotickEvent) (es : List CryptotickEvent) :
    replay state (e :: es) = replay (cryptotickUpdateState state e).1 es := rfl

theorem replay_append (state : L2State) (es es' : List CryptotickEvent) :
    replay state (es ++ es') = replay (replay state es) es' := by
  simp [replay]

theorem lookup_foldl_applyOrder (updateType : UpdateType) (orders : List Order) (b : OrderBook)
    (s : Side) (p : ℚ) : (orders.foldl (applyOrder updateType) b).lookup s p =
      levelOrders updateType orders s p (b.lookup s p) := by
  induction orders generalizing b with
  | nil => rfl
  | cons o os ih =>
    rw [List.foldl_cons, ih, applyOrder, OrderBook.lookup_alter]
    simp only [levelOrders, List.foldl_cons]
    congr 1
    split_ifs with h
    · rw [h.1, h.2]
    · rfl

theorem inited_cryptotickUpdateState (state : L2State) (e : CryptotickEvent) :
    (cryptotickUpdateState state e).1.inited =
      (state.inited || decide (e.updateType = .snapshot)) := by
  unfold cryptotickUpdateState
  by_cases hs : e.updateType = .snapshot <;> cases hi : state.inited <;> simp [hs, hi]

theorem lookup_cryptotickUpdateState {state : L2State} {e : CryptotickEvent}
    (h : state.inited = true ∨ e.updateType = .snapshot) (s : Side) (p : ℚ) :
    (cryptotickUpdateState state e).1.orderBook.lookup s p =
      levelEvent s p (state.orderBook.lookup s p) e := by
  have hc : ¬ (e.updateType ≠ .snapshot ∧ state.inited = false) := by
    rcases h with h | h <;> simp [h]
  simp only [cryptotickUpdateState, if_neg hc, lookup_foldl_applyOrder, levelEvent]
  by_cases hs : e.updateType = .snapshot <;> simp [hs]

theorem inited_replay (state : L2State) (es : List CryptotickEvent) :
    (replay state es).inited =
      (state.inited || es.any fun e => decide (e.updateType = .snapshot)) := by
  induction es generalizing state with
  | nil => simp
  | cons e es ih => rw [replay_cons, ih, inited_cryptotickUpdateState, List.any_cons, Bool.or_assoc]

/-- Replaying events from an initialised state treats every level on its own. -/
theorem lookup_replay_of_inited {state : L2State} (h : state.inited = true)
    (es : List CryptotickEvent) (s : Side) (p : ℚ) :
    (replay state es).orderBook.lookup s p = levelAfter es s p (state.orderBook.lookup s p) := by
  induction es generalizing state with
  | nil => rfl
  | cons e es ih =>
    have hi : (cryptotickUpdateState state e).1.inited = true := by
      simp [inited_cryptotickUpdateState, h]
    rw [replay_cons, ih hi, lookup_cryptotickUpdateState (.inl h)]
    rfl

/-- Before the first SNAPSHOT nothing happens. -/
theorem replay_of_not_inited {state : L2State} (h : state.inited = false)
    {es : List CryptotickEvent} (hes : ∀ e ∈ es, e.updateType ≠ .snapshot) :
    replay state es = state := by
  induction es with
  | nil => rfl
  | cons e es ih =>
    have he : (cryptotickUpdateState state e).1 = state := by
      simp [cryptotickUpdateState, hes e List.mem_cons_self, h]
    rw [replay_cons, he, ih fun e' h' => hes e' (List.mem_cons_of_mem _ h')]

/-- A SNAPSHOT among the events makes the book independent of the state they start from. -/
theorem replay_orderBook_eq_of_snapshot {es : List CryptotickEvent}
    (h : ∃ e ∈ es, e.updateType = .snapshot) (state state' : L2State) :
    (replay state es).orderBook = (replay state' es).orderBook := by
  obtain ⟨e, he, hs⟩ := h
  obtain ⟨es₁, es₂, rfl⟩ := List.append_of_mem he
  refine OrderBook.ext' fun s p => ?_
  have key : ∀ st : L2State, (replay st (es₁ ++ e :: es₂)).orderBook.lookup s p =
      levelAfter es₂ s p (levelOrders e.updateType e.orders s p none) := by
    intro st
    rw [replay_append, replay_cons, lookup_replay_of_inited
      (by simp [inited_cryptotickUpdateState, hs]), lookup_cryptotickUpdateState (.inr hs),
      levelEvent, if_pos hs]
  rw [key state, key state']

end Svoe
