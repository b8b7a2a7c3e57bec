import Svoe.L2Book.UpdateState

/-!
# The cryptofeed book

A cryptofeed order assigns its level, and a zero size deletes it, so a level is what the last order
at its price says.  Orders count from the last non-delta event on, which resets the book; the count
of inconsistencies goes on across resets.

* `BookOfOrders.foldl_cryptofeedOrder` : the orders of one event.
* `StateOfEvents.step` : one event.
* `bookOfEvents_cryptofeedReplay` : after every run, book and count are those of its history.
-/

namespace Svoe

/-- `cryptofeed_update_state` over a list of events. -/
def cryptofeedReplay (state : L2State) (events : List CryptofeedEvent) : L2State :=
  events.foldl (fun st e => (cryptofeedUpdateState st e).1) state

/-! ### What the history says -/

/-- The last write at a price, unless it has size zero. -/
def lastWrite (orders : List Order) (s : Side) (p : ℚ) : Option ℚ :=
  (sizesAt orders s p).getLast?.bind fun size => if size = 0 then none else some size

/-- The number of orders of size zero that hit an absent price, behind the orders `before`. -/
def zeroMisses (before : List Order) : List Order → ℕ
  | [] => 0
  | o :: os =>
    (if o.size = 0 ∧ lastWrite before o.side o.price = none then 1 else 0) +
      zeroMisses (before ++ [o]) os

/-- The orders from the last non-delta event on, if there is one. -/
def ordersSinceReset : List CryptofeedEvent → Option (List Order)
  | [] => none
  | e :: es =>
    (ordersSinceReset es).or
      (if e.delta = true then none else some ((e :: es).flatMap CryptofeedEvent.orders))

/-- The orders that an event finds since the reset, behind the events `earlier`: an event that is
not a delta is a reset itself, a delta without a reset before it is skipped. -/
def ordersBefore (earlier : List CryptofeedEvent) (e : CryptofeedEvent) : Option (List Order) :=
  if e.delta = true then ordersSinceReset earlier else some []

/-- The number of orders of size zero that hit an absent price, behind the events `earlier`. -/
def inconsistencies (earlier : List CryptofeedEvent) : List CryptofeedEvent → ℕ
  | [] => 0
  | e :: es =>
    ((ordersBefore earlier e).elim 0 fun before => zeroMisses before e.orders) +
      inconsistencies (earlier ++ [e]) es

/-- A state with the book and the count of a history. -/
structure BookOfEvents (events : List CryptofeedEvent) (state : L2State) : Prop where
  /-- No level has size zero. -/
  size_ne_zero : ∀ s p, state.orderBook.lookup s p ≠ some 0
  /-- A level is the last write since the reset. -/
  lookup : ∀ s p,
    state.orderBook.lookup s p = lastWrite ((ordersSinceReset events).getD []) s p
  /-- The count goes over the whole history. -/
  misses : state.noPriceWithZeroSize = inconsistencies [] events
  /-- Nothing changes before the first reset. -/
  unchanged : (∀ e ∈ events, e.delta = true) → state = {}

variable {before : List Order} {events : List CryptofeedEvent} {state : L2State}

@[simp] theorem lastWrite_nil (s : Side) (p : ℚ) : lastWrite [] s p = none := rfl

theorem lastWrite_append_singleton (orders : List Order) (o : Order) (s : Side) (p : ℚ) :
    lastWrite (orders ++ [o]) s p = if s = o.side ∧ p = o.price then
      if o.size = 0 then none else some o.size else lastWrite orders s p := by
  unfold lastWrite sizesAt
  rw [List.filter_append, List.map_append]
  by_cases h : s = o.side ∧ p = o.price
  · rw [if_pos h, List.filter_cons_of_pos (by simpa using h), List.filter_nil, List.map_singleton,
      List.getLast?_append_of_ne_nil _ (List.cons_ne_nil _ _)]
    rfl
  · rw [if_neg h, List.filter_cons_of_neg (by simpa using h), List.filter_nil, List.map_nil,
      List.append_nil]

theorem lastWrite_ne_zero (orders : List Order) (s : Side) (p : ℚ) :
    lastWrite orders s p ≠ some 0 := by
  intro h
  obtain ⟨size, -, hsize⟩ := Option.bind_eq_some_iff.1 h
  split_ifs at hsize with hzero
  exact hzero (Option.some.inj hsize)

/-- One more event. -/
theorem ordersSinceReset_append_singleton (events : List CryptofeedEvent) (e : CryptofeedEvent) :
    ordersSinceReset (events ++ [e]) = (ordersBefore events e).map (· ++ e.orders) := by
  induction events with
  | nil =>
    simp only [List.nil_append, ordersSinceReset, ordersBefore, Option.none_or]
    split_ifs <;> simp
  | cons e' events ih =>
    rw [List.cons_append, ordersSinceReset, ih, ordersBefore, ordersBefore, ordersSinceReset]
    split_ifs <;> cases ordersSinceReset events <;> simp

theorem ordersSinceReset_of_delta (h : ∀ e ∈ events, e.delta = true) :
    ordersSinceReset events = none := by
  induction events with
  | nil => rfl
  | cons e events ih =>
    obtain ⟨he, hevents⟩ := List.forall_mem_cons.1 h
    rw [ordersSinceReset, ih hevents, if_pos he, Option.none_or]

theorem inconsistencies_append_singleton (earlier events : List CryptofeedEvent)
    (e : CryptofeedEvent) : inconsistencies earlier (events ++ [e]) =
      inconsistencies earlier events +
        (ordersBefore (earlier ++ events) e).elim 0 fun before => zeroMisses before e.orders := by
  induction events generalizing earlier with
  | nil => simp [inconsistencies]
  | cons e' events ih => simp [inconsistencies, ih, Nat.add_assoc]

/-! ### The orders of an event -/

/-- The levels of a book are the last writes. -/
def BookOfOrders (orders : List Order) (b : OrderBook) : Prop :=
  ∀ s p, b.lookup s p = lastWrite orders s p

/-- **One order.** -/
theorem BookOfOrders.cryptofeedOrder (h : BookOfOrders before state.orderBook) (o : Order) :
    BookOfOrders (before ++ [o]) (cryptofeedOrder state o).orderBook ∧
      (Svoe.cryptofeedOrder state o).noPriceWithZeroSize = state.noPriceWithZeroSize +
        if o.size = 0 ∧ lastWrite before o.side o.price = none then 1 else 0 := by
  unfold Svoe.cryptofeedOrder BookOfOrders
  rw [← h o.side o.price]
  by_cases hzero : o.size = 0
  · cases hcur : state.orderBook.lookup o.side o.price with
    | some size =>
      -- the level is deleted
      rw [if_pos hzero, if_pos Option.isSome_some, if_neg fun hmiss => by cases hmiss.2]
      refine ⟨fun s p => ?_, rfl⟩
      rw [OrderBook.lookup_alter, lastWrite_append_singleton, if_pos hzero, h s p]
    | none =>
      rw [if_pos hzero, if_neg (by simp), if_pos ⟨hzero, rfl⟩]
      refine ⟨fun s p => ?_, rfl⟩
      rw [lastWrite_append_singleton, if_pos hzero, ← h s p]
      split_ifs with hlevel
      · rw [hlevel.1, hlevel.2, hcur]
      · rfl
  · rw [if_neg hzero, if_neg fun hmiss => hzero hmiss.1]
    refine ⟨fun s p => ?_, rfl⟩
    rw [OrderBook.lookup_alter, lastWrite_append_singleton, if_neg hzero, h s p]

/-- **The orders of an event.** -/
theorem BookOfOrders.foldl_cryptofeedOrder (h : BookOfOrders before state.orderBook)
    (orders : List Order) :
    BookOfOrders (before ++ orders) (orders.foldl Svoe.cryptofeedOrder state).orderBook ∧
      (orders.foldl Svoe.cryptofeedOrder state).noPriceWithZeroSize =
        state.noPriceWithZeroSize + zeroMisses before orders := by
  induction orders generalizing before state with
  | nil => exact ⟨by rwa [List.append_nil], rfl⟩
  | cons o os ih =>
    obtain ⟨hbook, hcount⟩ := h.cryptofeedOrder o
    obtain ⟨hbook', hcount'⟩ := ih hbook
    rw [List.append_assoc] at hbook'
    refine ⟨hbook', ?_⟩
    rw [List.foldl_cons, hcount', hcount, zeroMisses, Nat.add_assoc]

theorem inited_foldl_cryptofeedOrder (orders : List Order) (state : L2State) :
    (orders.foldl cryptofeedOrder state).inited = state.inited := by
  induction orders generalizing state with
  | nil => rfl
  | cons o os ih =>
    rw [List.foldl_cons, ih, cryptofeedOrder]
    split_ifs <;> rfl

/-! ### Runs -/

/-- The state of a history: whether there was a reset, the book since and the count. -/
structure StateOfEvents (events : List CryptofeedEvent) (state : L2State) : Prop where
  inited : state.inited = (ordersSinceReset events).isSome
  book : BookOfOrders ((ordersSinceReset events).getD []) state.orderBook
  misses : state.noPriceWithZeroSize = inconsistencies [] events
  unchanged : ordersSinceReset events = none → state = {}

/-- An event that is not skipped applies its orders to a state with the book that the event
finds. -/
theorem exists_start {e : CryptofeedEvent} (h : ¬ (e.delta = true ∧ state.inited = false)) :
    ∃ start : L2State, start.inited = true ∧
      start.noPriceWithZeroSize = state.noPriceWithZeroSize ∧
      start.orderBook = (if e.delta = true then state.orderBook else .empty) ∧
      (cryptofeedUpdateState state e).1 = { e.orders.foldl cryptofeedOrder start with
        timestamp := e.timestamp
        receiptTimestamp := e.receiptTimestamp } := by
  cases hdelta : e.delta with
  | false =>
    exact ⟨{ state with inited := true, orderBook := .empty, obCount := state.obCount + 1 },
      rfl, rfl, rfl, by rw [cryptofeedUpdateState_of_reset state hdelta]⟩
  | true =>
    have hinited : state.inited = true := by simpa [hdelta] using h
    exact ⟨state, hinited, rfl, rfl, by rw [cryptofeedUpdateState_of_delta hdelta hinited]⟩

/-- **One event.** -/
theorem StateOfEvents.step (h : StateOfEvents events state) (e : CryptofeedEvent) :
    StateOfEvents (events ++ [e]) (cryptofeedUpdateState state e).1 := by
  have hinited := h.inited
  have horders := ordersSinceReset_append_singleton events e
  have hmisses := inconsistencies_append_singleton [] events e
  rw [List.nil_append, ← h.misses] at hmisses
  cases hbefore : ordersBefore events e with
  | none =>
    -- a delta before the first reset is skipped
    rw [hbefore] at horders hmisses
    have hdelta : e.delta = true ∧ ordersSinceReset events = none := by
      unfold ordersBefore at hbefore
      split_ifs at hbefore with hdelta
      exact ⟨hdelta, hbefore⟩
    rw [hdelta.2] at hinited
    rw [cryptofeedUpdateState_of_skip hdelta.1 hinited]
    have hbook := h.book
    rw [hdelta.2] at hbook
    exact ⟨by rw [hinited, horders]; rfl, by rwa [horders], hmisses.symm,
      fun _ => h.unchanged hdelta.2⟩
  | some before =>
    rw [hbefore] at horders hmisses
    have happlied : ¬ (e.delta = true ∧ state.inited = false) := by
      rintro ⟨hdelta, hnot⟩
      rw [ordersBefore, if_pos hdelta] at hbefore
      rw [hbefore, hnot] at hinited
      cases hinited
    obtain ⟨start, hstarted, hcount, hstart, hstate⟩ := exists_start happlied
    have hbook : BookOfOrders before start.orderBook := by
      rw [hstart]
      unfold ordersBefore at hbefore
      split_ifs at hbefore ⊢ with hdelta
      · have hbook := h.book
        rwa [hbefore] at hbook
      · rw [← Option.some.inj hbefore]
        exact fun s p => OrderBook.lookup_empty s p
    obtain ⟨hbook', hcount'⟩ := hbook.foldl_cryptofeedOrder e.orders
    rw [hstate]
    refine ⟨?_, by rwa [horders], ?_, fun hnone => ?_⟩
    · rw [horders, Option.map_some, Option.isSome_some]
      exact (inited_foldl_cryptofeedOrder e.orders start).trans hstarted
    · rw [hmisses, ← hcount]
      exact hcount'
    · rw [hnone] at horders
      cases horders

theorem stateOfEvents_cryptofeedReplay (events : List CryptofeedEvent) :
    StateOfEvents events (cryptofeedReplay {} events) := by
  induction events using List.reverseRecOn with
  | nil => exact ⟨rfl, fun s p => OrderBook.lookup_empty s p, rfl, fun _ => rfl⟩
  | append_singleton events e ih =>
    rw [cryptofeedReplay, List.foldl_append]
    exact ih.step e

/-- **After every run, book and count are those of its history.** -/
theorem bookOfEvents_cryptofeedReplay (events : List CryptofeedEvent) :
    BookOfEvents events (cryptofeedReplay {} events) := by
  have h := stateOfEvents_cryptofeedReplay events
  refine ⟨fun s p => ?_, h.book, h.misses, fun hdelta => h.unchanged ?_⟩
  · rw [h.book s p]
    exact lastWrite_ne_zero _ s p
  · exact ordersSinceReset_of_delta hdelta

end Svoe
