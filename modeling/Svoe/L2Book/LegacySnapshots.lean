import Mathlib.Data.List.DropRight
import Svoe.Common.Dict
import Svoe.L2Book.CryptofeedBook

/-!
# The snapshots of a delta frame

`l2_snaps` of `data_eng` goes over the rows of a delta frame and keeps one book from the first
snapshot row on.  Whenever the timestamp changes it appends the book as a row of columns.  Unlike
`cryptofeed_update_state` it never resets the book, so a later snapshot is only written over it.

* `dictGet_obToSnap` : a row of columns shows the whole book.
* `StateOfRows.step` : what the loop has made of the rows from the first snapshot on.
* `followsResets_iff` : when every row shows the book since the last snapshot.
-/

namespace Svoe

/-- A row of the delta frame; `delta` is `False` for the rows of a snapshot. -/
structure DeltaRow where
  timestamp : ℚ
  delta : Bool
  order : Order
  deriving DecidableEq, Repr

/-- A column of `_ob_to_snap`. -/
inductive SnapColumn where
  /-- `timestamp`. -/
  | timestamp
  /-- `bid[level].price` or `ask[level].price`. -/
  | price (side : Side) (level : ℕ)
  /-- `bid[level].size` or `ask[level].size`. -/
  | size (side : Side) (level : ℕ)
  deriving DecidableEq, Repr

/-- The columns of one side of a level, if the side is so deep. -/
def setLevel (ob : OrderBook) (level : ℕ) (snapshot : List (SnapColumn × ℚ)) (side : Side) :
    List (SnapColumn × ℚ) :=
  match (ob.prices side)[level]? with
  | some price =>
    dictSet (dictSet snapshot (.price side level) price) (.size side level)
      ((ob.lookup side price).getD 0)
  | none => snapshot

/-- `_ob_to_snap`. -/
def obToSnap (ob : OrderBook) (timestamp : ℚ) : List (SnapColumn × ℚ) :=
  (List.range (max (ob.depth .bid) (ob.depth .ask))).foldl
    (fun snapshot level => setLevel ob level (setLevel ob level snapshot .bid) .ask)
    [(.timestamp, timestamp)]

/-- The variables of `l2_snaps`. -/
structure L2SnapsState where
  snapshots : List (List (SnapColumn × ℚ)) := []
  currentTimestamp : ℚ := 0
  foundFirstSnapshot : Bool := false
  ob : OrderBook := .empty
  inc : ℕ := 0

/-- The end of a round: the row's price and size. -/
def applyRow (s : L2SnapsState) (o : Order) : L2SnapsState :=
  if o.size = 0 then
    if (s.ob.lookup o.side o.price).isSome then
      { s with ob := s.ob.alter o.side o.price fun _ => none }
    else { s with inc := s.inc + 1 }
  else { s with ob := s.ob.alter o.side o.price fun _ => some o.size }

/-- A round of `l2_snaps`. -/
def l2SnapsRow (s : L2SnapsState) (row : DeltaRow) : L2SnapsState :=
  if s.foundFirstSnapshot = false ∧ row.delta = true then s
  else
    let s := if s.foundFirstSnapshot = false then
        { s with foundFirstSnapshot := true, currentTimestamp := row.timestamp }
      else s
    let s := if s.currentTimestamp ≠ row.timestamp then
        { s with
          snapshots := s.snapshots ++ [obToSnap s.ob s.currentTimestamp]
          currentTimestamp := row.timestamp }
      else s
    applyRow s row.order

/-- `l2_snaps`. -/
def l2Snaps (deltas : List DeltaRow) : List (List (SnapColumn × ℚ)) × ℕ :=
  let s := deltas.foldl l2SnapsRow {}
  (s.snapshots ++ [obToSnap s.ob s.currentTimestamp], s.inc)

/-! ### The rows since the last snapshot -/

/-- The book that orders form: a zero size removes a level. -/
def bookFrom (orders : List Order) : OrderBook :=
  orders.foldl (fun b o => b.alter o.side o.price fun _ => if o.size = 0 then none else some o.size)
    .empty

/-- The rows from the first snapshot on. -/
def fromFirstSnapshot (deltas : List DeltaRow) : List DeltaRow := deltas.dropWhile (·.delta)

/-- The rows up to a time. -/
def upTo (t : ℚ) (rows : List DeltaRow) : List DeltaRow := rows.filter (·.timestamp ≤ t)

/-- The row is of the snapshot whose last row is the last one of `rows`. -/
def ofSnapshot (rows : List DeltaRow) (row : DeltaRow) : Bool :=
  !row.delta && rows.getLast?.any fun last => last.timestamp = row.timestamp

/-- The rows before the last snapshot. -/
def beforeSnapshot (rows : List DeltaRow) : List DeltaRow :=
  (rows.rdropWhile (·.delta)).rdropWhile (ofSnapshot (rows.rdropWhile (·.delta)))

/-- The rows of the last snapshot and the deltas behind them. -/
def sinceSnapshot (rows : List DeltaRow) : List DeltaRow :=
  (rows.rdropWhile (·.delta)).rtakeWhile (ofSnapshot (rows.rdropWhile (·.delta))) ++
    rows.rtakeWhile (·.delta)

/-- One row of columns per timestamp from the first snapshot on, with the book of the last snapshot
and of the deltas since. -/
def FollowsResets (deltas : List DeltaRow) : Prop :=
  (l2Snaps deltas).1 = ((fromFirstSnapshot deltas).map DeltaRow.timestamp).dedup.map fun t =>
    obToSnap (bookFrom ((sinceSnapshot (upTo t (fromFirstSnapshot deltas))).map DeltaRow.order)) t

/-- No level that the rows before the last snapshot leave is without a row since. -/
def LevelsRewritten (rows : List DeltaRow) : Prop :=
  ∀ o ∈ (beforeSnapshot rows).map DeltaRow.order,
    lastWrite ((beforeSnapshot rows).map DeltaRow.order) o.side o.price ≠ none →
      ∃ o' ∈ (sinceSnapshot rows).map DeltaRow.order, o'.side = o.side ∧ o'.price = o.price

instance (deltas : List DeltaRow) : Decidable (FollowsResets deltas) :=
  inferInstanceAs (Decidable (_ = _))

instance (rows : List DeltaRow) : Decidable (LevelsRewritten rows) :=
  inferInstanceAs (Decidable (∀ o ∈ _, _ → ∃ o' ∈ _, _))

variable {ob ob' : OrderBook} {s : Side} {p t : ℚ} {deltas rows : List DeltaRow}
  {state : L2SnapsState}

/-! ### Columns -/

/-- The side and level of a column. -/
def SnapColumn.place : SnapColumn → Option (Side × ℕ)
  | .timestamp => none
  | .price side level => some (side, level)
  | .size side level => some (side, level)

/-- What a book has in a column of a level. -/
def shown (ob : OrderBook) : SnapColumn → Option ℚ
  | .timestamp => none
  | .price side level => (ob.prices side)[level]?
  | .size side level => (ob.prices side)[level]?.map fun price => (ob.lookup side price).getD 0

theorem dictGet_setLevel (ob : OrderBook) (level : ℕ) (snapshot : List (SnapColumn × ℚ))
    (side : Side) (c : SnapColumn) :
    dictGet (setLevel ob level snapshot side) c =
      if c.place = some (side, level) then (shown ob c).or (dictGet snapshot c)
      else dictGet snapshot c := by
  unfold setLevel
  cases hprice : (ob.prices side)[level]? with
  | none =>
    split_ifs with hplace
    · have hshown : shown ob c = none := by
        cases c with
        | timestamp => rfl
        | price s i => obtain ⟨rfl, rfl⟩ := Prod.mk.inj (Option.some.inj hplace); exact hprice
        | size s i =>
          obtain ⟨rfl, rfl⟩ := Prod.mk.inj (Option.some.inj hplace)
          rw [shown, hprice, Option.map_none]
      rw [hshown, Option.none_or]
    · rfl
  | some price =>
    dsimp only
    rw [dictGet_dictSet, dictGet_dictSet]
    cases c with
    | timestamp => rfl
    | price s i =>
      by_cases hplace : side = s ∧ level = i
      · obtain ⟨rfl, rfl⟩ := hplace
        simp [SnapColumn.place, shown, hprice]
      · have hne : ¬ (s = side ∧ i = level) := fun h => hplace ⟨h.1.symm, h.2.symm⟩
        simp [SnapColumn.place, hplace, hne]
    | size s i =>
      by_cases hplace : side = s ∧ level = i
      · obtain ⟨rfl, rfl⟩ := hplace
        simp [SnapColumn.place, shown, hprice]
      · have hne : ¬ (s = side ∧ i = level) := fun h => hplace ⟨h.1.symm, h.2.symm⟩
        simp [SnapColumn.place, hplace, hne]

/-- The loop over the levels. -/
theorem dictGet_foldl_setLevel (ob : OrderBook) (t : ℚ) {c : SnapColumn} {s : Side} {i : ℕ}
    (hc : c.place = some (s, i)) (n : ℕ) :
    dictGet ((List.range n).foldl
      (fun snapshot level => setLevel ob level (setLevel ob level snapshot .bid) .ask)
      [(.timestamp, t)]) c = if i < n then shown ob c else none := by
  induction n with
  | zero =>
    have hne : SnapColumn.timestamp ≠ c := by rintro rfl; cases hc
    simp [dictGet, hne]
  | succ n ih =>
    rw [List.range_succ, List.foldl_append, List.foldl_cons, List.foldl_nil, dictGet_setLevel,
      dictGet_setLevel, ih, hc]
    -- the round for a level writes its own columns only
    by_cases hi : i = n
    · subst hi
      cases s <;> simp
    · have hlt : i < n + 1 ↔ i < n := by omega
      simp [hi, hlt]

theorem shown_eq_none {c : SnapColumn} {i : ℕ} (hc : c.place = some (s, i))
    (hi : ob.depth s ≤ i) : shown ob c = none := by
  cases c with
  | timestamp => cases hc
  | price s' i' =>
    obtain ⟨rfl, rfl⟩ := Prod.mk.inj (Option.some.inj hc)
    exact List.getElem?_eq_none hi
  | size s' i' =>
    obtain ⟨rfl, rfl⟩ := Prod.mk.inj (Option.some.inj hc)
    rw [shown, List.getElem?_eq_none hi, Option.map_none]

/-- **The columns of the levels show the book.** -/
theorem dictGet_obToSnap (ob : OrderBook) (t : ℚ) {c : SnapColumn} {i : ℕ}
    (hc : c.place = some (s, i)) : dictGet (obToSnap ob t) c = shown ob c := by
  rw [obToSnap, dictGet_foldl_setLevel ob t hc]
  split_ifs with hi
  · rfl
  · refine (shown_eq_none hc ?_).symm
    cases s
    · exact (le_max_left _ _).trans (Nat.le_of_not_lt hi)
    · exact (le_max_right _ _).trans (Nat.le_of_not_lt hi)

/-- Books that are shown alike are equal. -/
theorem obToSnap_inj : obToSnap ob t = obToSnap ob' t ↔ ob = ob' := by
  refine ⟨fun h => ?_, fun h => by rw [h]⟩
  have hshown : ∀ {c : SnapColumn} {s : Side} {i : ℕ}, c.place = some (s, i) →
      shown ob c = shown ob' c := fun hc => by
    rw [← dictGet_obToSnap ob t hc, ← dictGet_obToSnap ob' t hc, h]
  have hprices : ∀ s, ob.prices s = ob'.prices s := fun s =>
    List.ext_getElem? fun i => hshown (c := .price s i) rfl
  refine OrderBook.ext' fun s p => ?_
  by_cases hp : p ∈ ob.prices s
  · -- the price is at the same level of both books, where its size is shown
    obtain ⟨i, hi⟩ := List.mem_iff_getElem?.1 hp
    have hsize : shown ob (.size s i) = shown ob' (.size s i) := hshown rfl
    rw [shown, shown, ← hprices s, hi] at hsize
    obtain ⟨x, hx⟩ := Option.isSome_iff_exists.1 (OrderBook.mem_prices.1 hp)
    obtain ⟨y, hy⟩ := Option.isSome_iff_exists.1 (OrderBook.mem_prices.1 (hprices s ▸ hp))
    rw [Option.map_some, Option.map_some, hx, hy] at hsize
    rw [hx, hy]
    exact hsize
  · have hp' : p ∉ ob'.prices s := hprices s ▸ hp
    rw [OrderBook.mem_prices, Option.not_isSome_iff_eq_none] at hp hp'
    rw [hp, hp']

/-! ### Books of orders -/

theorem bookFrom_append_singleton (orders : List Order) (o : Order) :
    bookFrom (orders ++ [o]) = (bookFrom orders).alter o.side o.price fun _ =>
      if o.size = 0 then none else some o.size := by
  rw [bookFrom, List.foldl_append]
  rfl

/-- A level is the last write at its price. -/
theorem lookup_bookFrom (orders : List Order) : BookOfOrders orders (bookFrom orders) := by
  induction orders using List.reverseRecOn with
  | nil => exact fun s p => OrderBook.lookup_empty s p
  | append_singleton orders o ih =>
    intro s p
    rw [bookFrom_append_singleton, OrderBook.lookup_alter, lastWrite_append_singleton, ih s p]

theorem lastWrite_append (orders orders' : List Order) (s : Side) (p : ℚ) :
    lastWrite (orders ++ orders') s p =
      if sizesAt orders' s p = [] then lastWrite orders s p else lastWrite orders' s p := by
  have happend : sizesAt (orders ++ orders') s p = sizesAt orders s p ++ sizesAt orders' s p := by
    rw [sizesAt, List.filter_append, List.map_append]
    rfl
  rw [lastWrite, happend]
  split_ifs with h
  · rw [h, List.append_nil]
    rfl
  · rw [List.getLast?_append_of_ne_nil _ h]
    rfl

theorem sizesAt_eq_nil_iff {orders : List Order} :
    sizesAt orders s p = [] ↔ ∀ o ∈ orders, ¬ (o.side = s ∧ o.price = p) := by
  rw [sizesAt, List.map_eq_nil_iff, List.filter_eq_nil_iff]
  simp only [decide_eq_true_eq, @eq_comm Side s, @eq_comm ℚ p]

theorem exists_order_of_lastWrite {orders : List Order} (h : lastWrite orders s p ≠ none) :
    ∃ o ∈ orders, o.side = s ∧ o.price = p := by
  by_contra hno
  push Not at hno
  refine h ?_
  rw [lastWrite, sizesAt_eq_nil_iff.2 fun o ho hat => hno o ho hat.1 hat.2]
  rfl

/-- Orders that come first do not show at a price if it is empty then or written again. -/
theorem lastWrite_append_eq_iff {orders orders' : List Order} :
    lastWrite (orders ++ orders') s p = lastWrite orders' s p ↔
      (lastWrite orders s p ≠ none → ∃ o ∈ orders', o.side = s ∧ o.price = p) := by
  rw [lastWrite_append]
  split_ifs with h
  · have hnone : lastWrite orders' s p = none := by rw [lastWrite, h]; rfl
    rw [sizesAt_eq_nil_iff] at h
    rw [hnone]
    refine ⟨fun heq hne => absurd heq hne, fun hwritten => ?_⟩
    by_contra hne
    obtain ⟨o, ho, hat⟩ := hwritten hne
    exact h o ho hat
  · rw [sizesAt_eq_nil_iff] at h
    push Not at h
    exact iff_of_true rfl fun _ => h

/-- Orders that come first do not show if and only if all their levels are written again. -/
theorem bookFrom_append_eq_iff (orders orders' : List Order) :
    bookFrom (orders ++ orders') = bookFrom orders' ↔
      ∀ o ∈ orders, lastWrite orders o.side o.price ≠ none →
        ∃ o' ∈ orders', o'.side = o.side ∧ o'.price = o.price := by
  constructor
  · intro h o _
    refine lastWrite_append_eq_iff.1 ?_
    rw [← lookup_bookFrom, ← lookup_bookFrom, h]
  · intro h
    refine OrderBook.ext' fun s p => ?_
    rw [lookup_bookFrom, lookup_bookFrom, lastWrite_append_eq_iff]
    intro hne
    obtain ⟨o, ho, rfl, rfl⟩ := exists_order_of_lastWrite hne
    exact h o ho hne

/-! ### The loop over the rows -/

/-- What the loop has made of the rows from the first snapshot on. -/
structure StateOfRows (rows : List DeltaRow) (state : L2SnapsState) : Prop where
  found : state.foundFirstSnapshot = true
  ob : state.ob = bookFrom (rows.map DeltaRow.order)
  current : ∃ r ∈ rows, r.timestamp = state.currentTimestamp
  le : ∀ r ∈ rows, r.timestamp ≤ state.currentTimestamp
  /-- The timestamps before the current one have their rows of columns. -/
  snapshots : ∃ ts : List ℚ, ts.Pairwise (· < ·) ∧
    (∀ t, t ∈ ts ↔ t < state.currentTimestamp ∧ ∃ r ∈ rows, r.timestamp = t) ∧
    state.snapshots = ts.map fun t => obToSnap (bookFrom ((upTo t rows).map DeltaRow.order)) t

/-- The end of a round changes book and count only. -/
theorem exists_applyRow (state : L2SnapsState) (o : Order) :
    ∃ inc, applyRow state o = { state with
      ob := state.ob.alter o.side o.price fun _ => if o.size = 0 then none else some o.size
      inc := inc } := by
  unfold applyRow
  by_cases hzero : o.size = 0
  · simp only [if_pos hzero]
    split_ifs with hsome
    · exact ⟨state.inc, rfl⟩
    · refine ⟨state.inc + 1, ?_⟩
      -- there is no level to delete
      have hob : state.ob = state.ob.alter o.side o.price fun _ => none := by
        refine OrderBook.ext' fun s p => ?_
        rw [OrderBook.lookup_alter]
        split_ifs with hat
        · rw [hat.1, hat.2]
          exact Option.not_isSome_iff_eq_none.1 hsome
        · rfl
      rw [← hob]
  · simp only [if_neg hzero]
    exact ⟨state.inc, rfl⟩

theorem upTo_append_of_lt {r : DeltaRow} (h : t < r.timestamp) :
    upTo t (rows ++ [r]) = upTo t rows := by
  rw [upTo, List.filter_append, List.filter_cons_of_neg (by simpa using h), List.filter_nil,
    List.append_nil]
  rfl

theorem upTo_eq_self (h : ∀ r ∈ rows, r.timestamp ≤ t) : upTo t rows = rows :=
  List.filter_eq_self.2 fun r hr => decide_eq_true (h r hr)

/-- What a round does before it looks at price and size. -/
def turnTo (state : L2SnapsState) (timestamp : ℚ) : L2SnapsState :=
  if state.currentTimestamp ≠ timestamp then
    { state with
      snapshots := state.snapshots ++ [obToSnap state.ob state.currentTimestamp]
      currentTimestamp := timestamp }
  else state

theorem l2SnapsRow_of_found (h : state.foundFirstSnapshot = true) (r : DeltaRow) :
    l2SnapsRow state r = applyRow (turnTo state r.timestamp) r.order := by
  simp [l2SnapsRow, turnTo, h]

/-- When the timestamp changes, the book of the passed one is complete. -/
theorem StateOfRows.turn (h : StateOfRows rows state) (hle : state.currentTimestamp ≤ t) :
    (turnTo state t).foundFirstSnapshot = true ∧ (turnTo state t).ob = state.ob ∧
      (turnTo state t).currentTimestamp = t ∧
      ∃ ts : List ℚ, ts.Pairwise (· < ·) ∧
        (∀ x, x ∈ ts ↔ x < t ∧ ∃ r ∈ rows, r.timestamp = x) ∧
        (turnTo state t).snapshots = ts.map fun x =>
          obToSnap (bookFrom ((upTo x rows).map DeltaRow.order)) x := by
  obtain ⟨ts, hlt, hmem, hsnapshots⟩ := h.snapshots
  unfold turnTo
  split_ifs with hchange
  · have hpassed : state.currentTimestamp < t := lt_of_le_of_ne hle hchange
    refine ⟨h.found, rfl, rfl, ts ++ [state.currentTimestamp], ?_, fun x => ?_, ?_⟩
    · rw [List.pairwise_append]
      refine ⟨hlt, List.pairwise_singleton _ _, fun x hx y hy => ?_⟩
      rw [List.mem_singleton.1 hy]
      exact ((hmem x).1 hx).1
    · rw [List.mem_append, List.mem_singleton, hmem]
      constructor
      · rintro (⟨hx, hrow⟩ | rfl)
        · exact ⟨hx.trans hpassed, hrow⟩
        · exact ⟨hpassed, h.current⟩
      · rintro ⟨-, r, hr, rfl⟩
        exact (h.le r hr).lt_or_eq.imp_left fun hx => ⟨hx, r, hr, rfl⟩
    · rw [List.map_append, List.map_singleton, upTo_eq_self h.le, ← h.ob, ← hsnapshots]
  · obtain rfl := not_ne_iff.1 hchange
    exact ⟨h.found, rfl, rfl, ts, hlt, hmem, hsnapshots⟩

/-- **One row.** -/
theorem StateOfRows.step (h : StateOfRows rows state) {r : DeltaRow}
    (hr : ∀ q ∈ rows, q.timestamp ≤ r.timestamp) :
    StateOfRows (rows ++ [r]) (l2SnapsRow state r) := by
  obtain ⟨q, hq, hcurrent⟩ := h.current
  obtain ⟨hfound, hob, hturned, ts, hlt, hmem, hsnapshots⟩ := h.turn (hcurrent ▸ hr q hq)
  obtain ⟨inc, happly⟩ := exists_applyRow (turnTo state r.timestamp) r.order
  rw [l2SnapsRow_of_found h.found, happly]
  refine ⟨hfound, ?_, ⟨r, by simp, hturned.symm⟩, fun q hq => ?_, ts, hlt, fun t => ?_, ?_⟩
  · rw [List.map_append, List.map_singleton, bookFrom_append_singleton, ← h.ob, ← hob]
  · rw [hturned]
    rcases List.mem_append.1 hq with hq | hq
    · exact hr q hq
    · rw [List.mem_singleton.1 hq]
  · rw [hmem, hturned]
    refine and_congr_right fun ht => ?_
    simp [ht.ne']
  · refine hsnapshots.trans (List.map_congr_left fun t ht => ?_)
    rw [upTo_append_of_lt ((hmem t).1 ht).1]

/-- The first snapshot row. -/
theorem stateOfRows_singleton {r : DeltaRow} (h : r.delta = false) :
    StateOfRows [r] (l2SnapsRow {} r) := by
  obtain ⟨inc, happly⟩ := exists_applyRow
    { foundFirstSnapshot := true, currentTimestamp := r.timestamp } r.order
  have hrow : l2SnapsRow {} r =
      applyRow { foundFirstSnapshot := true, currentTimestamp := r.timestamp } r.order := by
    simp [l2SnapsRow, h]
  rw [hrow, happly]
  refine ⟨rfl, rfl, ⟨r, List.mem_singleton_self r, rfl⟩, ?_, [], .nil, fun t => ?_, rfl⟩
  · exact fun q hq => (congrArg DeltaRow.timestamp (List.mem_singleton.1 hq)).le
  · refine iff_of_false List.not_mem_nil ?_
    rintro ⟨hlt, q, hq, rfl⟩
    rw [List.mem_singleton.1 hq] at hlt
    exact lt_irrefl _ hlt

/-- Nothing happens before the first snapshot row. -/
theorem foldl_l2SnapsRow_of_delta (h : ∀ r ∈ rows, r.delta = true) :
    rows.foldl l2SnapsRow {} = {} := by
  induction rows with
  | nil => rfl
  | cons r rows ih =>
    obtain ⟨hr, hrows⟩ := List.forall_mem_cons.1 h
    rw [List.foldl_cons, l2SnapsRow, if_pos ⟨rfl, hr⟩, ih hrows]

/-- **The whole loop.** -/
theorem stateOfRows_l2Snaps (hsorted : deltas.Pairwise fun r r' => r.timestamp ≤ r'.timestamp)
    (hsnapshot : ∃ r ∈ deltas, r.delta = false) :
    StateOfRows (fromFirstSnapshot deltas) (deltas.foldl l2SnapsRow {}) := by
  have hskip : ∀ r ∈ deltas.takeWhile (·.delta), r.delta = true :=
    fun r hr => List.mem_takeWhile_imp hr
  obtain ⟨r, rest, hrest⟩ : ∃ r rest, fromFirstSnapshot deltas = r :: rest := by
    refine List.exists_cons_of_ne_nil fun hnil => ?_
    obtain ⟨r, hr, hdelta⟩ := hsnapshot
    exact absurd (List.dropWhile_eq_nil_iff.1 hnil r hr) (by simp [hdelta])
  have hfirst : r.delta = false := by
    have hnot := List.head?_dropWhile_not (·.delta) deltas
    rw [← fromFirstSnapshot, hrest] at hnot
    simpa using hnot
  have hrows : (r :: rest).Pairwise fun r r' => r.timestamp ≤ r'.timestamp :=
    hrest ▸ hsorted.sublist (List.dropWhile_sublist _)
  rw [← List.takeWhile_append_dropWhile (p := (·.delta)) (l := deltas), List.foldl_append,
    foldl_l2SnapsRow_of_delta hskip, List.takeWhile_append_dropWhile, ← fromFirstSnapshot, hrest]
  clear hrest
  -- from the first snapshot on each row is a step from the rows before it
  induction rest using List.reverseRecOn with
  | nil => exact stateOfRows_singleton hfirst
  | append_singleton rest r' ih =>
    rw [← List.cons_append, List.pairwise_append] at hrows
    rw [← List.cons_append, List.foldl_append]
    exact (ih hrows.1).step fun q hq => hrows.2.2 q hq r' (List.mem_singleton_self r')

/-- Strictly increasing times are the distinct ones of a list with the same times. -/
theorem dedup_eq_of_pairwise_lt {ts l : List ℚ} (hts : ts.Pairwise (· < ·))
    (hl : l.Pairwise (· ≤ ·)) (hmem : ∀ t, t ∈ ts ↔ t ∈ l) : l.dedup = ts := by
  have hperm : l.dedup.Perm ts := by
    refine (List.perm_ext_iff_of_nodup l.nodup_dedup (hts.imp fun h => h.ne)).2 fun t => ?_
    rw [List.mem_dedup, hmem]
  exact hperm.eq_of_pairwise' (hl.sublist l.dedup_sublist) (hts.imp fun h => h.le)

/-- **What `l2_snaps` emits**: for each timestamp, the book of all rows from the first snapshot
on. -/
theorem fst_l2Snaps (hsorted : deltas.Pairwise fun r r' => r.timestamp ≤ r'.timestamp)
    (hsnapshot : ∃ r ∈ deltas, r.delta = false) :
    (l2Snaps deltas).1 = ((fromFirstSnapshot deltas).map DeltaRow.timestamp).dedup.map fun t =>
      obToSnap (bookFrom ((upTo t (fromFirstSnapshot deltas)).map DeltaRow.order)) t := by
  have h := stateOfRows_l2Snaps hsorted hsnapshot
  have hrows : (fromFirstSnapshot deltas).Pairwise fun r r' => r.timestamp ≤ r'.timestamp :=
    hsorted.sublist (List.dropWhile_sublist _)
  obtain ⟨ts, hlt, hmem, hsnapshots⟩ := h.snapshots
  have hdedup : ((fromFirstSnapshot deltas).map DeltaRow.timestamp).dedup =
      ts ++ [(deltas.foldl l2SnapsRow {}).currentTimestamp] := by
    refine dedup_eq_of_pairwise_lt ?_ (List.pairwise_map.2 hrows) fun t => ?_
    · rw [List.pairwise_append]
      refine ⟨hlt, List.pairwise_singleton _ _, fun x hx y hy => ?_⟩
      rw [List.mem_singleton.1 hy]
      exact ((hmem x).1 hx).1
    · rw [List.mem_append, List.mem_singleton, hmem, List.mem_map]
      constructor
      · rintro (⟨-, hrow⟩ | rfl)
        · exact hrow
        · exact h.current
      · rintro ⟨r, hr, rfl⟩
        exact (h.le r hr).lt_or_eq.imp_left fun hlt => ⟨hlt, r, hr, rfl⟩
  rw [hdedup, List.map_append, List.map_singleton, upTo_eq_self h.le, ← h.ob, ← hsnapshots]
  rfl

/-! ### Resets -/

theorem beforeSnapshot_append_sinceSnapshot (rows : List DeltaRow) :
    beforeSnapshot rows ++ sinceSnapshot rows = rows := by
  rw [beforeSnapshot, sinceSnapshot, ← List.append_assoc, List.rdropWhile_append_rtakeWhile,
    List.rdropWhile_append_rtakeWhile]

/-- The rows before the last snapshot do not show if and only if their levels are written again. -/
theorem bookFrom_sinceSnapshot_iff (rows : List DeltaRow) :
    bookFrom (rows.map DeltaRow.order) = bookFrom ((sinceSnapshot rows).map DeltaRow.order) ↔
      LevelsRewritten rows := by
  have hrows : rows.map DeltaRow.order =
      (beforeSnapshot rows).map DeltaRow.order ++ (sinceSnapshot rows).map DeltaRow.order := by
    rw [← List.map_append, beforeSnapshot_append_sinceSnapshot]
  rw [hrows, bookFrom_append_eq_iff, LevelsRewritten]

/-- **Every emitted book follows the resets** if and only if no level outlives one. -/
theorem followsResets_iff (hsorted : deltas.Pairwise fun r r' => r.timestamp ≤ r'.timestamp)
    (hsnapshot : ∃ r ∈ deltas, r.delta = false) :
    FollowsResets deltas ↔ ∀ r ∈ fromFirstSnapshot deltas,
      LevelsRewritten (upTo r.timestamp (fromFirstSnapshot deltas)) := by
  rw [FollowsResets, fst_l2Snaps hsorted hsnapshot, List.map_inj_left]
  simp only [List.mem_dedup, List.forall_mem_map, obToSnap_inj, bookFrom_sinceSnapshot_iff]

/-- A snapshot that goes over the levels of the one before it. -/
theorem followsResets_sameLevels : FollowsResets
    [⟨1, false, ⟨.bid, 100, 1⟩⟩, ⟨1, false, ⟨.ask, 102, 1⟩⟩, ⟨2, true, ⟨.ask, 102, 0⟩⟩,
      ⟨3, false, ⟨.bid, 100, 2⟩⟩] :=
  (followsResets_iff (by decide) (by decide)).2 (by decide +kernel)

/-- The level of the first snapshot outlives the second one. -/
theorem not_followsResets_otherLevel :
    ¬ FollowsResets [⟨1, false, ⟨.bid, 100, 1⟩⟩, ⟨2, false, ⟨.bid, 101, 1⟩⟩] := by
  decide +kernel

end Svoe
