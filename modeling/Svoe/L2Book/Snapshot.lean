import Svoe.L2Book.UpdateState
import Svoe.Common.Time

/-!
# The L2 snapshot feature

`L2SnapshotFD` turns L2 events into depth-limited snapshots of the book.  `stateSnapshot` reads a
snapshot off the state; it shows the same number of levels on both sides, so the deeper side is
cut to the depth of the shallower one (`snapshotDepth`).
-/

namespace Svoe

/-- An event of `L2SnapshotFD`: `(price, size)` pairs, best level first. -/
structure L2Snapshot where
  timestamp : ℚ
  receiptTimestamp : ℚ
  bids : List (ℚ × ℚ)
  asks : List (ℚ × ℚ)
  deriving DecidableEq

/-- The `sampling` parameter. -/
inductive Sampling where
  | raw
  | skipAll
  | period (w : Window)
  deriving DecidableEq, Repr

/-- The first `depth` levels of a side, best first. -/
def OrderBook.levels (b : OrderBook) (s : Side) (depth : ℕ) : List (ℚ × ℚ) :=
  ((b.prices s).take depth).map fun p => (p, (b.lookup s p).getD 0)

/-- The number of levels a snapshot shows: `depth = -1` means the full book, but never more than
the shallower side has. -/
def OrderBook.snapshotDepth (b : OrderBook) (depth : ℤ) : ℕ :=
  if depth = -1 then min (b.depth .bid) (b.depth .ask)
  else (min depth (min (b.depth .bid) (b.depth .ask) : ℕ)).toNat

/-- `L2SnapshotFD._state_snapshot`. -/
def stateSnapshot (state : L2State) (depth : ℤ) : L2Snapshot where
  timestamp := state.timestamp
  receiptTimestamp := state.receiptTimestamp
  bids := state.orderBook.levels .bid (state.orderBook.snapshotDepth depth)
  asks := state.orderBook.levels .ask (state.orderBook.snapshotDepth depth)

/-- What `L2SnapshotFD._update_state` emits after the state update: every event when sampling is
`raw`, none when it is `skip_all`, else the first one and those more than a period after the last
emitted one. -/
def sampleSnapshot (depth : ℤ) (sampling : Sampling) (r : L2State × Bool) :
    L2State × Option L2Snapshot :=
  let (state, skipEvent) := r
  match sampling with
  | .raw => (state, if skipEvent then none else some (stateSnapshot state depth))
  | .skipAll => (state, none)
  | .period w =>
    if (state.lastEmittedTs < 0 ∨ convertStrToSeconds w < state.timestamp - state.lastEmittedTs) ∧
        skipEvent = false then
      let state := { state with lastEmittedTs := state.timestamp }
      (state, some (stateSnapshot state depth))
    else (state, none)

/-- `L2SnapshotFD._update_state` with `dep_schema='cryptotick'`. -/
def updateStateCryptotick (depth : ℤ) (sampling : Sampling) (state : L2State)
    (event : CryptotickEvent) : L2State × Option L2Snapshot :=
  sampleSnapshot depth sampling (cryptotickUpdateState state event)

/-- `L2SnapshotFD._update_state` with `dep_schema='cryptofeed'`. -/
def updateStateCryptofeed (depth : ℤ) (sampling : Sampling) (state : L2State)
    (event : CryptofeedEvent) : L2State × Option L2Snapshot :=
  sampleSnapshot depth sampling (cryptofeedUpdateState state event)

theorem levels_eq_nil_iff {b : OrderBook} {s : Side} {depth : ℕ} (h : depth ≤ b.depth s) :
    b.levels s depth = [] ↔ depth = 0 := by
  rw [← List.length_eq_zero_iff, OrderBook.levels, List.length_map, List.length_take]
  simp only [OrderBook.depth] at h
  omega

end Svoe
