import Svoe.L2Book.UpdateState
import Mathlib.Tactic.Linarith

/-!
# The book as net sizes

A feed is consistent if its sizes are positive (a SET may have zero) and every SUB takes at most the
size of an existing level.  Then the book has the net sizes of what came since the last SNAPSHOT.

* `bookNet_applyOrder`, `bookNet_cryptotickUpdateState` : one order, one event.
* `replay_netSize` : a run of events.
-/

namespace Svoe

/-! ### Consistent feeds -/

/-- An order that the book can take. -/
def OrderOk (updateType : UpdateType) (b : OrderBook) (o : Order) : Prop :=
  match updateType with
  | .add | .snapshot => 0 < o.size
  | .set => 0 ≤ o.size
  | .sub => 0 < o.size ∧ ∃ cur, b.lookup o.side o.price = some cur ∧ o.size ≤ cur

/-- Orders that the book can take one after the other. -/
def OrdersOk (updateType : UpdateType) (b : OrderBook) : List Order → Prop
  | [] => True
  | o :: os => OrderOk updateType b o ∧ OrdersOk updateType (applyOrder updateType b o) os

/-- Events that the book can take one after the other; a skipped event may be anything. -/
def EventsOk (state : L2State) : List CryptotickEvent → Prop
  | [] => True
  | e :: es =>
    (state.inited = true ∨ e.updateType = .snapshot →
      OrdersOk e.updateType (if e.updateType = .snapshot then .empty else state.orderBook)
        e.orders) ∧
      EventsOk (cryptotickUpdateState state e).1 es

instance (updateType : UpdateType) (b : OrderBook) (o : Order) :
    Decidable (OrderOk updateType b o) :=
  match updateType with
  | .add | .snapshot => inferInstanceAs (Decidable (0 < o.size))
  | .set => inferInstanceAs (Decidable (0 ≤ o.size))
  | .sub => inferInstanceAs
    (Decidable (0 < o.size ∧ ∃ cur ∈ b.lookup o.side o.price, o.size ≤ cur))

instance decidableOrdersOk (updateType : UpdateType) :
    (b : OrderBook) → (os : List Order) → Decidable (OrdersOk updateType b os)
  | _, [] => .isTrue trivial
  | _, _ :: os => @instDecidableAnd _ _ _ (decidableOrdersOk updateType _ os)

instance decidableEventsOk : (state : L2State) → (es : List CryptotickEvent) →
    Decidable (EventsOk state es)
  | _, [] => .isTrue trivial
  | _, _ :: es => @instDecidableAnd _ _ inferInstance (decidableEventsOk _ es)

/-! ### Net sizes -/

/-- What an order does to the net size of its level. -/
def UpdateType.onNet : UpdateType → ℚ → ℚ → ℚ
  | .add, size, net => net + size
  | .snapshot, size, net => net + size
  | .set, size, _ => size
  | .sub, size, net => net - size

/-- The net size of a level after some orders. -/
def netOrders (updateType : UpdateType) (orders : List Order) (s : Side) (p : ℚ) (net : ℚ) : ℚ :=
  orders.foldl (fun net o => if s = o.side ∧ p = o.price then updateType.onNet o.size net
    else net) net

/-- The net size of a level after an event: a SNAPSHOT begins from zero. -/
def netEvent (s : Side) (p : ℚ) (net : ℚ) (e : CryptotickEvent) : ℚ :=
  netOrders e.updateType e.orders s p (if e.updateType = .snapshot then 0 else net)

/-- The net size of a level from some events. -/
def netSize (events : List CryptotickEvent) (s : Side) (p : ℚ) : ℚ :=
  events.foldl (netEvent s p) 0

/-- The book has the net sizes, on the levels where they are positive. -/
def BookNet (b : OrderBook) (net : Side → ℚ → ℚ) : Prop :=
  ∀ s p, (b.lookup s p).getD 0 = net s p ∧ ((b.lookup s p).isSome ↔ 0 < net s p)

theorem bookNet_empty : BookNet .empty fun _ _ => 0 := fun s p => by simp

variable {updateType : UpdateType} {b : OrderBook} {o : Order} {net : Side → ℚ → ℚ}

/-- One level: what it does to the size, it does to the net size. -/
theorem onLevel_onNet {cur : Option ℚ} {n : ℚ}
    (hok : OrderOk updateType b o) (hcur : b.lookup o.side o.price = cur)
    (hn : cur.getD 0 = n ∧ (cur.isSome ↔ 0 < n)) :
    (updateType.onLevel o.size cur).getD 0 = updateType.onNet o.size n ∧
      ((updateType.onLevel o.size cur).isSome ↔ 0 < updateType.onNet o.size n) := by
  obtain ⟨rfl, hpos⟩ := hn
  cases updateType with
  | add | snapshot =>
    have hsize : 0 < o.size := hok
    cases cur with
    | none => simp [UpdateType.onLevel, UpdateType.onNet, hsize]
    | some c =>
      have hc : 0 < c := hpos.1 rfl
      simp [UpdateType.onLevel, UpdateType.onNet, add_pos hc hsize]
  | set =>
    have hsize : 0 ≤ o.size := hok
    by_cases hzero : o.size = 0
    · simp [UpdateType.onLevel, UpdateType.onNet, hzero]
    · simp [UpdateType.onLevel, UpdateType.onNet, hzero, lt_of_le_of_ne hsize (Ne.symm hzero)]
  | sub =>
    obtain ⟨-, c, hc, hle⟩ := hok
    obtain rfl := hcur.symm.trans hc
    by_cases hzero : c - o.size = 0
    · simp [UpdateType.onLevel, UpdateType.onNet, hzero]
    · have hrest : 0 < c - o.size := lt_of_le_of_ne (by linarith) (Ne.symm hzero)
      simp only [UpdateType.onLevel, hzero, if_false, Option.getD_some, UpdateType.onNet,
        Option.isSome_some, hrest, and_self]

/-- **One order.** -/
theorem bookNet_applyOrder (hb : BookNet b net) (hok : OrderOk updateType b o) :
    BookNet (applyOrder updateType b o) fun s p =>
      if s = o.side ∧ p = o.price then updateType.onNet o.size (net s p) else net s p := by
  intro s p
  dsimp only
  rw [applyOrder, OrderBook.lookup_alter]
  split_ifs with h
  · obtain ⟨rfl, rfl⟩ := h
    exact onLevel_onNet hok rfl (hb _ _)
  · exact hb s p

theorem bookNet_foldl_applyOrder {orders : List Order} (hb : BookNet b net)
    (hok : OrdersOk updateType b orders) :
    BookNet (orders.foldl (applyOrder updateType) b) fun s p =>
      netOrders updateType orders s p (net s p) := by
  induction orders generalizing b net with
  | nil => exact hb
  | cons o os ih => exact ih (bookNet_applyOrder hb hok.1) hok.2

variable {state : L2State} {e : CryptotickEvent} {es : List CryptotickEvent}

/-- **One event** that is not skipped. -/
theorem bookNet_cryptotickUpdateState (happlied : state.inited = true ∨ e.updateType = .snapshot)
    (hb : BookNet state.orderBook net)
    (hok : OrdersOk e.updateType (if e.updateType = .snapshot then .empty else state.orderBook)
      e.orders) :
    BookNet (cryptotickUpdateState state e).1.orderBook fun s p => netEvent s p (net s p) e := by
  have hc : ¬ (e.updateType ≠ .snapshot ∧ state.inited = false) := by
    rcases happlied with h | h <;> simp [h]
  simp only [cryptotickUpdateState, if_neg hc, netEvent]
  by_cases hs : e.updateType = .snapshot
  · simp only [hs, if_true] at hok ⊢
    exact bookNet_foldl_applyOrder bookNet_empty hok
  · simp only [hs, if_false] at hok ⊢
    exact bookNet_foldl_applyOrder hb hok

theorem bookNet_replay (hi : state.inited = true) (hb : BookNet state.orderBook net)
    (hok : EventsOk state es) :
    BookNet (replay state es).orderBook fun s p => es.foldl (netEvent s p) (net s p) := by
  induction es generalizing state net with
  | nil => exact hb
  | cons e es ih =>
    have hi' : (cryptotickUpdateState state e).1.inited = true := by
      rw [inited_cryptotickUpdateState, hi, Bool.true_or]
    exact ih hi' (bookNet_cryptotickUpdateState (.inl hi) hb (hok.1 (.inl hi))) hok.2

theorem EventsOk.of_append {before : List CryptotickEvent} (h : EventsOk state (before ++ es)) :
    EventsOk (replay state before) es := by
  induction before generalizing state with
  | nil => exact h
  | cons e before ih => exact ih h.2

/-- **The book of a consistent feed** has exactly the net sizes since the last SNAPSHOT, where they
are positive.  What comes before the first SNAPSHOT changes nothing, and what comes before any
SNAPSHOT does not matter for the book. -/
theorem replay_netSize :
    (∀ before e es, e.updateType = .snapshot → (∀ e' ∈ es, e'.updateType ≠ .snapshot) →
      EventsOk {} (before ++ e :: es) → ∀ s p,
        ((replay {} (before ++ e :: es)).orderBook.lookup s p).getD 0 = netSize (e :: es) s p ∧
          (((replay {} (before ++ e :: es)).orderBook.lookup s p).isSome ↔
            0 < netSize (e :: es) s p)) ∧
      (∀ before es, (∀ e ∈ before, e.updateType ≠ .snapshot) →
        replay {} (before ++ es) = replay {} es) ∧
      ∀ before before' e es, e.updateType = .snapshot →
        (replay {} (before ++ e :: es)).orderBook = (replay {} (before' ++ e :: es)).orderBook := by
  refine ⟨fun before e es he _ hok => ?_, fun before es hbefore => ?_,
    fun before before' e es he => ?_⟩
  · have hok := hok.of_append
    rw [replay_append, replay_cons]
    have hi : (cryptotickUpdateState (replay {} before) e).1.inited = true := by
      simp [inited_cryptotickUpdateState, he]
    -- the SNAPSHOT begins from the empty book, whatever the book was
    have hreset : BookNet (cryptotickUpdateState (replay {} before) e).1.orderBook fun s p =>
        netEvent s p 0 e := by
      have horders := hok.1 (.inr he)
      rw [if_pos he] at horders
      simp only [cryptotickUpdateState, netEvent, he, ne_eq, not_true, false_and, if_false, if_true]
        at horders ⊢
      exact bookNet_foldl_applyOrder bookNet_empty horders
    exact bookNet_replay hi hreset hok.2
  · rw [replay_append, replay_of_not_inited rfl hbefore]
  · rw [replay_append, replay_append, replay_orderBook_eq_of_snapshot ⟨e, by simp, he⟩]

/-- A SNAPSHOT with two orders at one price, behind an event that is skipped. -/
def repeatedPrice : CryptotickEvent :=
  ⟨1, 1, .snapshot, [⟨.bid, 100, 1⟩, ⟨.bid, 100, 2⟩, ⟨.ask, 101, 3⟩]⟩

/-- Events after it: the level at 101 is emptied, and another one is set to zero. -/
def emptiedLevels : List CryptotickEvent :=
  [⟨2, 2, .sub, [⟨.ask, 101, 1⟩, ⟨.ask, 101, 2⟩]⟩, ⟨3, 3, .add, [⟨.bid, 100, 1 / 2⟩]⟩,
    ⟨4, 4, .set, [⟨.bid, 99, 0⟩]⟩]

theorem replay_netSize_repeatedPrice :
    let state := replay {} (⟨0, 0, .sub, [⟨.bid, 100, 7⟩]⟩ :: repeatedPrice :: emptiedLevels)
    (state.orderBook.lookup .bid 100).getD 0 = 7 / 2 ∧
      ¬ (state.orderBook.lookup .ask 101).isSome ∧ ¬ (state.orderBook.lookup .bid 99).isSome := by
  have hnet := replay_netSize.1 [⟨0, 0, .sub, [⟨.bid, 100, 7⟩]⟩] repeatedPrice emptiedLevels rfl
    (by decide) (by decide +kernel)
  have hbid : netSize (repeatedPrice :: emptiedLevels) .bid 100 = 7 / 2 := by decide +kernel
  have hask : netSize (repeatedPrice :: emptiedLevels) .ask 101 = 0 := by decide +kernel
  have hset : netSize (repeatedPrice :: emptiedLevels) .bid 99 = 0 := by decide +kernel
  exact ⟨(hnet .bid 100).1.trans hbid, fun h => (hask ▸ (hnet .ask 101).2.1 h).ne rfl,
    fun h => (hset ▸ (hnet .bid 99).2.1 h).ne rfl⟩

end Svoe
