import Svoe.L2Book.Regroup
import Svoe.L2Book.Sampling
import Svoe.Transition.Basic

/-!
# Price features over snapshots

`MidPriceFD` and `RelativeBidAskSpreadFD` read the best level of both sides of a snapshot, and raise
if there is none.  A snapshot shows as many levels as the shallower side has, so it has none when
one side of the book is empty, and when the depth is not positive.

* `isSome_foldl_onLevel` : what leaves a level in the book.
* `priced_stateSnapshot` : which snapshots the features can read.
* `priced_iff_leavesPrices` : one event.
* `priced_snapshotStream_iff` : in a run, they read all of them exactly if every event that emits a
  snapshot leaves a level on both sides.
-/

namespace Svoe

open Series

/-! ### The condition -/

/-- The way the orders of an event change their levels; cryptofeed orders assign them. -/
def L2Schema.updateType : (schema : L2Schema) → schema.Event → UpdateType
  | cryptotick, e => CryptotickEvent.updateType e
  | cryptofeed, _ => .set

/-- The event resets the book. -/
def L2Schema.resets : (schema : L2Schema) → schema.Event → Bool
  | cryptotick, e => decide (CryptotickEvent.updateType e = .snapshot)
  | cryptofeed, e => !CryptofeedEvent.delta e

/-- `event['orders']`. -/
def L2Schema.orders : (schema : L2Schema) → schema.Event → List Order
  | cryptotick, e => CryptotickEvent.orders e
  | cryptofeed, e => CryptofeedEvent.orders e

/-- Orders of these sizes leave a level in the book: ADD and SNAPSHOT orders always, SET orders if
the last of them is not zero, SUB orders if no initial part of them takes exactly what is there. -/
def UpdateType.LeavesLevel (u : UpdateType) (sizes : List ℚ) (cur : Option ℚ) : Prop :=
  match u with
  | .add | .snapshot => sizes ≠ [] ∨ cur.isSome
  | .set => if sizes = [] then cur.isSome else sizes.getLast? ≠ some 0
  | .sub => ∃ c, cur = some c ∧ ∀ l, l ≠ [] → l <+: sizes → l.sum ≠ c

/-- The state emits a snapshot for the event. -/
def Emits (schema : L2Schema) (sampling : Sampling) (state : L2State) (e : schema.Event) : Prop :=
  (state.inited = true ∨ schema.resets e = true) ∧
    match sampling with
    | .raw => True
    | .skipAll => False
    | .period w => state.lastEmittedTs < 0 ∨
        convertStrToSeconds w < schema.timestamp e - state.lastEmittedTs

/-- A snapshot is emitted only with a positive depth (or the full one) and for an event that leaves
a level on both sides. -/
def LeavesPrices (schema : L2Schema) (depth : ℤ) (sampling : Sampling) (state : L2State)
    (e : schema.Event) : Prop :=
  Emits schema sampling state e → (depth = -1 ∨ 1 ≤ depth) ∧ ∀ s, ∃ p,
    (schema.updateType e).LeavesLevel (sizesAt (schema.orders e) s p)
      (if schema.resets e = true then none else state.orderBook.lookup s p)

/-- `L2SnapshotFD._update_state` as a step. -/
def sampleStep (schema : L2Schema) (depth : ℤ) (sampling : Sampling) (state : L2State)
    (e : schema.Event) : Option L2State :=
  some (sampleSnapshot depth sampling (schema.updateBook state e)).1

/-- Both features can read the snapshot. -/
def Priced (snap : L2Snapshot) : Prop :=
  (∃ mid, midPrice snap = .ok mid) ∧ ∃ spread, relativeBidAskSpread snap = .ok spread

/-! ### One level -/

/-- Taking from a level. -/
theorem isSome_foldl_onLevel_sub (sizes : List ℚ) (c : ℚ) :
    (sizes.foldl (fun cur size => UpdateType.sub.onLevel size cur) (some c)).isSome ↔
      ∀ l, l ≠ [] → l <+: sizes → l.sum ≠ c := by
  induction sizes generalizing c with
  | nil => exact iff_of_true rfl fun l hne hl => absurd (List.prefix_nil.1 hl) hne
  | cons size sizes ih =>
    rw [List.foldl_cons, UpdateType.onLevel]
    split_ifs with hzero
    · rw [foldl_onLevel_sub_none]
      refine iff_of_false (by simp) fun h => ?_
      have hsize : [size].sum = c := by rw [List.sum_singleton]; linarith
      exact h [size] (List.cons_ne_nil _ _) (List.cons_prefix_cons.2 ⟨rfl, List.nil_prefix⟩) hsize
    · rw [ih]
      constructor
      · intro h l hne hl hsum
        obtain ⟨size', l, rfl⟩ := List.exists_cons_of_ne_nil hne
        obtain ⟨rfl, htail⟩ := List.cons_prefix_cons.1 hl
        rw [List.sum_cons] at hsum
        rcases eq_or_ne l [] with rfl | hl
        · exact hzero (by rw [← hsum, List.sum_nil, add_zero, sub_self])
        · exact h l hl htail (by linarith)
      · intro h l hne hl hsum
        refine h (size :: l) (List.cons_ne_nil _ _) (List.cons_prefix_cons.2 ⟨rfl, hl⟩) ?_
        rw [List.sum_cons, hsum, add_sub_cancel]

/-- **What leaves a level in the book.** -/
theorem isSome_foldl_onLevel (u : UpdateType) (sizes : List ℚ) (cur : Option ℚ) :
    (sizes.foldl (fun cur size => u.onLevel size cur) cur).isSome ↔ u.LeavesLevel sizes cur := by
  cases u with
  | add =>
    rw [foldl_onLevel_add]
    by_cases hnil : sizes = [] <;> simp [UpdateType.LeavesLevel, hnil]
  | snapshot =>
    rw [foldl_onLevel_snapshot]
    by_cases hnil : sizes = [] <;> simp [UpdateType.LeavesLevel, hnil]
  | set =>
    rw [foldl_onLevel_set, UpdateType.LeavesLevel]
    rcases sizes.eq_nil_or_concat with rfl | ⟨sizes, size, rfl⟩
    · simp
    · by_cases hzero : size = 0 <;> simp [hzero]
  | sub =>
    cases cur with
    | none => simp [foldl_onLevel_sub_none, UpdateType.LeavesLevel]
    | some c => simp [isSome_foldl_onLevel_sub, UpdateType.LeavesLevel]

/-! ### Snapshots -/

/-- The prices of the book are positive. -/
def PricesPositive (b : OrderBook) : Prop := ∀ s p, (b.lookup s p).isSome → 0 < p

theorem priced_iff {snap : L2Snapshot} (hbids : ∀ l ∈ snap.bids, 0 < l.1)
    (hasks : ∀ l ∈ snap.asks, 0 < l.1) : Priced snap ↔ snap.bids ≠ [] ∧ snap.asks ≠ [] := by
  unfold Priced midPrice relativeBidAskSpread bestPrices
  cases hb : snap.bids with
  | nil => simp
  | cons bid bids =>
    cases ha : snap.asks with
    | nil => simp
    | cons ask asks =>
      have hbid : 0 < bid.1 := hbids bid (by simp [hb])
      have hask : 0 < ask.1 := hasks ask (by simp [ha])
      have hsum : bid.1 + ask.1 ≠ 0 := (add_pos hbid hask).ne'
      simp [hsum, Except.map]

theorem depth_pos_iff {b : OrderBook} {s : Side} :
    0 < b.depth s ↔ ∃ p, (b.lookup s p).isSome := by
  rw [OrderBook.depth, List.length_pos_iff_exists_mem]
  exact exists_congr fun p => OrderBook.mem_prices

theorem snapshotDepth_le (b : OrderBook) (depth : ℤ) (s : Side) :
    b.snapshotDepth depth ≤ b.depth s := by
  unfold OrderBook.snapshotDepth
  cases s <;> split_ifs <;> omega

theorem snapshotDepth_pos_iff {b : OrderBook} {depth : ℤ} : 0 < b.snapshotDepth depth ↔
    (depth = -1 ∨ 1 ≤ depth) ∧ 0 < b.depth .bid ∧ 0 < b.depth .ask := by
  unfold OrderBook.snapshotDepth
  split_ifs <;> omega

theorem pos_of_mem_levels {b : OrderBook} (h : PricesPositive b) {s : Side} {depth : ℕ} :
    ∀ l ∈ b.levels s depth, 0 < l.1 := by
  rw [OrderBook.levels, List.forall_mem_map]
  intro p hp
  exact h s p (OrderBook.mem_prices.1 (List.mem_of_mem_take hp))

/-- **Which snapshots the features can read.** -/
theorem priced_stateSnapshot {state : L2State} (h : PricesPositive state.orderBook) (depth : ℤ) :
    Priced (stateSnapshot state depth) ↔
      (depth = -1 ∨ 1 ≤ depth) ∧ ∀ s, ∃ p, (state.orderBook.lookup s p).isSome := by
  rw [priced_iff (pos_of_mem_levels h) (pos_of_mem_levels h)]
  simp only [stateSnapshot, ne_eq, levels_eq_nil_iff (snapshotDepth_le _ _ _), and_self,
    ← Nat.pos_iff_ne_zero, snapshotDepth_pos_iff, depth_pos_iff]
  refine and_congr_right fun _ => ⟨?_, fun hs => ⟨hs .bid, hs .ask⟩⟩
  rintro ⟨hbid, hask⟩ (_ | _)
  · exact hbid
  · exact hask

/-! ### The update of the book -/

section Step

variable {schema : L2Schema} {depth : ℤ} {sampling : Sampling} {state : L2State} {e : schema.Event}

/-- A cryptofeed order is a SET. -/
theorem orderBook_cryptofeedOrder (state : L2State) (o : Order) :
    (cryptofeedOrder state o).orderBook = applyOrder .set state.orderBook o := by
  unfold cryptofeedOrder applyOrder UpdateType.onLevel
  by_cases hzero : o.size = 0
  · cases hcur : state.orderBook.lookup o.side o.price with
    | some size => simp [hzero]
    | none =>
      refine OrderBook.ext' fun s p => ?_
      simp only [hzero, if_true, Option.isSome_none, Bool.false_eq_true, if_false,
        OrderBook.lookup_alter]
      split_ifs with hlevel
      · rw [hlevel.1, hlevel.2, hcur]
      · rfl
  · simp [hzero]

theorem orderBook_foldl_cryptofeedOrder (orders : List Order) (state : L2State) :
    (orders.foldl cryptofeedOrder state).orderBook =
      orders.foldl (applyOrder .set) state.orderBook := by
  induction orders generalizing state with
  | nil => rfl
  | cons o os ih => rw [List.foldl_cons, ih, orderBook_cryptofeedOrder, List.foldl_cons]

/-- Before the first reset an event is skipped. -/
theorem updateBook_of_skip (h : ¬ (state.inited = true ∨ schema.resets e = true)) :
    schema.updateBook state e = (state, true) := by
  rw [not_or, Bool.not_eq_true, Bool.not_eq_true] at h
  cases schema with
  | cryptotick => exact if_pos ⟨of_decide_eq_false h.2, h.1⟩
  | cryptofeed => exact if_pos ⟨by simpa [L2Schema.resets] using h.2, h.1⟩

/-- From the first reset on no event is skipped. -/
theorem updateBook_of_applied (h : state.inited = true ∨ schema.resets e = true) :
    (schema.updateBook state e).2 = false := by
  cases schema with
  | cryptotick =>
    have hskip : ¬ (CryptotickEvent.updateType e ≠ .snapshot ∧ state.inited = false) := by
      rintro ⟨hkind, hinited⟩
      simp [L2Schema.resets, hkind, hinited] at h
    rw [L2Schema.updateBook, cryptotickUpdateState, if_neg hskip]
  | cryptofeed =>
    have hskip : ¬ (CryptofeedEvent.delta e = true ∧ state.inited = false) := by
      rintro ⟨hdelta, hinited⟩
      simp [L2Schema.resets, hdelta, hinited] at h
    rw [L2Schema.updateBook, cryptofeedUpdateState, if_neg hskip]

/-- An event treats every level on its own. -/
theorem lookup_updateBook (h : state.inited = true ∨ schema.resets e = true) (s : Side) (p : ℚ) :
    (schema.updateBook state e).1.orderBook.lookup s p =
      (sizesAt (schema.orders e) s p).foldl
        (fun cur size => (schema.updateType e).onLevel size cur)
        (if schema.resets e = true then none else state.orderBook.lookup s p) := by
  rw [← levelOrders_eq_foldl]
  cases schema with
  | cryptotick =>
    simp only [L2Schema.resets, decide_eq_true_eq] at h ⊢
    exact lookup_cryptotickUpdateState h s p
  | cryptofeed =>
    rcases Bool.eq_false_or_eq_true (CryptofeedEvent.delta e) with hdelta | hdelta
    · have hreset : L2Schema.cryptofeed.resets e = false := by simp [L2Schema.resets, hdelta]
      have hinited : state.inited = true := by simpa [hreset] using h
      rw [if_neg (by simp [hreset]), L2Schema.updateBook,
        cryptofeedUpdateState_of_delta hdelta hinited]
      dsimp only [L2Schema.orders, L2Schema.updateType]
      rw [orderBook_foldl_cryptofeedOrder, lookup_foldl_applyOrder]
    · have hreset : L2Schema.cryptofeed.resets e = true := by simp [L2Schema.resets, hdelta]
      rw [if_pos hreset, L2Schema.updateBook, cryptofeedUpdateState_of_reset state hdelta]
      dsimp only [L2Schema.orders, L2Schema.updateType]
      rw [orderBook_foldl_cryptofeedOrder, lookup_foldl_applyOrder, OrderBook.lookup_empty]

/-- Positive prices are kept. -/
theorem pricesPositive_updateBook (h : PricesPositive state.orderBook)
    (he : ∀ o ∈ schema.orders e, 0 < o.price) :
    PricesPositive (schema.updateBook state e).1.orderBook := by
  by_cases happlied : state.inited = true ∨ schema.resets e = true
  · intro s p hsome
    rw [lookup_updateBook happlied] at hsome
    cases hsizes : sizesAt (schema.orders e) s p with
    | nil =>
      rw [hsizes, List.foldl_nil] at hsome
      split_ifs at hsome
      · cases hsome
      · exact h s p hsome
    | cons size sizes =>
      have hmem : size ∈ sizesAt (schema.orders e) s p := hsizes ▸ List.mem_cons_self
      obtain ⟨o, ho, -⟩ := List.mem_map.1 hmem
      obtain ⟨ho, hlevel⟩ := List.mem_filter.1 ho
      rw [(of_decide_eq_true hlevel).2]
      exact he o ho
  · rwa [updateBook_of_skip happlied]

/-- What `_update_state` emits. -/
theorem sampleSnapshot_updateBook (schema : L2Schema) (depth : ℤ) (sampling : Sampling)
    (state : L2State) (e : schema.Event) :
    (sampleSnapshot depth sampling (schema.updateBook state e)).1.orderBook =
        (schema.updateBook state e).1.orderBook ∧
      ∀ snap, (sampleSnapshot depth sampling (schema.updateBook state e)).2 = some snap ↔
        Emits schema sampling state e ∧
          snap = stateSnapshot (schema.updateBook state e).1 depth := by
  by_cases happlied : state.inited = true ∨ schema.resets e = true
  · have hskip := updateBook_of_applied happlied
    cases sampling with
    | raw =>
      simp only [sampleSnapshot, Emits, hskip, happlied, Bool.false_eq_true, if_false, true_and,
        Option.some.injEq]
      exact fun snap => eq_comm
    | skipAll => simp [sampleSnapshot, Emits]
    | period w =>
      simp only [sampleSnapshot, Emits, happlied, hskip, true_and, and_true,
        schema.lastEmittedTs_updateBook, schema.timestamp_updateBook hskip]
      split_ifs with hemit
      · refine ⟨rfl, fun snap => ?_⟩
        rw [Option.some.injEq, and_iff_right hemit, eq_comm, stateSnapshot, stateSnapshot,
          schema.timestamp_updateBook hskip]
      · simp [hemit]
  · rw [updateBook_of_skip happlied]
    cases sampling <;> simp [sampleSnapshot, Emits, happlied]

/-- **One event**: the snapshot it emits, if any, can be read exactly if the event leaves prices. -/
theorem priced_iff_leavesPrices (h : PricesPositive state.orderBook)
    (he : ∀ o ∈ schema.orders e, 0 < o.price) :
    (∀ snap, (sampleSnapshot depth sampling (schema.updateBook state e)).2 = some snap →
      Priced snap) ↔ LeavesPrices schema depth sampling state e := by
  have hpriced := priced_stateSnapshot (pricesPositive_updateBook h he) depth
  constructor
  · intro hall hemits
    have hread := hpriced.1 (hall _ (((sampleSnapshot_updateBook ..).2 _).2 ⟨hemits, rfl⟩))
    refine ⟨hread.1, fun s => (hread.2 s).imp fun p hp => ?_⟩
    rwa [lookup_updateBook hemits.1, isSome_foldl_onLevel] at hp
  · intro hleaves snap hsnap
    obtain ⟨hemits, rfl⟩ := ((sampleSnapshot_updateBook ..).2 snap).1 hsnap
    obtain ⟨hdepth, hsides⟩ := hleaves hemits
    refine hpriced.2 ⟨hdepth, fun s => (hsides s).imp fun p hp => ?_⟩
    rwa [lookup_updateBook hemits.1, isSome_foldl_onLevel]

end Step

/-! ### Runs -/

/-- What holds of the last event passed on, and of an event, holds of what `unique` passes on. -/
theorem forall_unique_iff {β : Type} [DecidableEq β] {P : β → Prop} {seen : Option β}
    (out : Option β) (hseen : ∀ b, seen = some b → P b) :
    ((∀ b, (Definition.unique seen out).2 = some b → P b) ↔ ∀ b, out = some b → P b) ∧
      ((∀ b, out = some b → P b) → ∀ b, (Definition.unique seen out).1 = some b → P b) := by
  unfold Definition.unique
  cases out with
  | none => exact ⟨Iff.rfl, fun _ => hseen⟩
  | some b =>
    dsimp only
    split_ifs with hold
    · exact ⟨by simp [hseen b hold], fun _ => hseen⟩
    · exact ⟨Iff.rfl, fun h => h⟩

/-- **From a state on** the price features read all snapshots exactly if all events leave prices. -/
theorem priced_accumulate_iff {schema : L2Schema} (depth : ℤ) (sampling : Sampling)
    {s : L2State × Option L2Snapshot} {events : List schema.Event}
    (hbook : PricesPositive s.1.orderBook) (hseen : ∀ snap, s.2 = some snap → Priced snap)
    (hprices : ∀ e ∈ events, ∀ o ∈ schema.orders e, 0 < o.price) :
    (∀ snap ∈ (accumulate (snapshotStep schema depth sampling) s events).2.reduceOption,
        Priced snap) ↔
      Transition.AllSteps (sampleStep schema depth sampling) (LeavesPrices schema depth sampling)
        s.1 events := by
  simp only [List.reduceOption_mem_iff]
  induction events generalizing s with
  | nil => simp [Transition.AllSteps]
  | cons e events ih =>
    obtain ⟨he, hevents⟩ := List.forall_mem_cons.1 hprices
    obtain ⟨hout, hnext⟩ :=
      forall_unique_iff (sampleSnapshot depth sampling (schema.updateBook s.1 e)).2 hseen
    have hone : (∀ snap, (sampleSnapshot depth sampling (schema.updateBook s.1 e)).2 = some snap →
        Priced snap) ↔ LeavesPrices schema depth sampling s.1 e :=
      priced_iff_leavesPrices hbook he
    have hbook' : PricesPositive
        (sampleSnapshot depth sampling (schema.updateBook s.1 e)).1.orderBook := by
      rw [(sampleSnapshot_updateBook ..).1]
      exact pricesPositive_updateBook hbook he
    rw [Transition.allSteps_cons_of_step rfl, accumulate_cons]
    simp only [List.mem_cons, or_imp, forall_and]
    have hfirst : (∀ snap, some snap = (snapshotStep schema depth sampling s e).2 → Priced snap) ↔
        LeavesPrices schema depth sampling s.1 e := by
      rw [← hone, ← hout]
      exact forall_congr' fun snap => imp_congr_left eq_comm
    rw [hfirst]
    exact and_congr_right fun hleaves => ih hbook' (hnext (hone.2 hleaves)) hevents

/-- **The price features read every snapshot** of a run exactly if every event that emits one leaves
a level on both sides. -/
theorem priced_snapshotStream_iff (schema : L2Schema) (depth : ℤ) (sampling : Sampling)
    {events : List schema.Event}
    (hprices : ∀ e ∈ events, ∀ o ∈ schema.orders e, 0 < o.price) :
    (∀ snap ∈ snapshotStream schema depth sampling events, Priced snap) ↔
      Transition.AllSteps (sampleStep schema depth sampling) (LeavesPrices schema depth sampling)
        {} events := by
  have hbook : PricesPositive OrderBook.empty := fun s p h => by
    rw [OrderBook.lookup_empty] at h
    cases h
  exact priced_accumulate_iff depth sampling hbook (fun snap h => by cases h) hprices

/-- A SNAPSHOT with a bid and an ask. -/
def twoSidedFeed : List CryptotickEvent := [⟨1, 1, .snapshot, [⟨.bid, 99, 5⟩, ⟨.ask, 101, 5⟩]⟩]

/-- The prices of the SNAPSHOT can be read. -/
theorem priced_snapshotStream_twoSidedFeed :
    snapshotStream .cryptotick 25 .raw twoSidedFeed ≠ [] ∧
      ∀ snap ∈ snapshotStream .cryptotick 25 .raw twoSidedFeed, Priced snap := by
  refine ⟨by decide +kernel, ?_⟩
  refine (priced_snapshotStream_iff .cryptotick 25 .raw (by decide +kernel)).2
    ⟨fun _ => ⟨.inr (by decide), fun s => ?_⟩, fun _ _ => trivial⟩
  cases s with
  | bid => exact ⟨99, .inl (by decide +kernel)⟩
  | ask => exact ⟨101, .inl (by decide +kernel)⟩

/-- The same, and a SUB that takes the whole ask. -/
def emptiedFeed : List CryptotickEvent := twoSidedFeed ++ [⟨2, 2, .sub, [⟨.ask, 101, 5⟩]⟩]

/-- The snapshot behind the SUB has no levels. -/
theorem not_priced_emptiedFeed :
    ¬ ∀ snap ∈ snapshotStream .cryptotick 25 .raw emptiedFeed, Priced snap := by
  intro h
  obtain ⟨⟨mid, hmid⟩, -⟩ := h ⟨2, 2, [], []⟩ (by decide +kernel)
  cases hmid

end Svoe
