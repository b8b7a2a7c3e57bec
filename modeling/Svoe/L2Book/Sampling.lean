import Svoe.Features.StreamTree
import Svoe.Series.Accumulate

/-!
# Sampled snapshots

With a sampling period, `L2SnapshotFD` emits the snapshots that `throttle` lets pass of those it
emits without one.  It keeps the time of the last one emitted, `-1` before the first.  A snapshot
that `unique` drops before the throttle has the time of the one before it and would not pass; one
that is emitted under sampling has a new time, and `unique` does not drop it.

* `SampledAs.step` : one event.
* `snapshotStream_period` : the sampled stream is the throttled raw stream.
-/

namespace Svoe

open Series

/-! ### The streams -/

/-- The two kinds of L2 events, `dep_schema`. -/
inductive L2Schema where
  | cryptotick
  | cryptofeed
  deriving DecidableEq, Repr

namespace L2Schema

/-- The events of a schema. -/
abbrev Event : L2Schema → Type
  | cryptotick => CryptotickEvent
  | cryptofeed => CryptofeedEvent

/-- `event['timestamp']`. -/
def timestamp : (schema : L2Schema) → schema.Event → ℚ
  | cryptotick, e => CryptotickEvent.timestamp e
  | cryptofeed, e => CryptofeedEvent.timestamp e

/-- The event of a stream. -/
def dataEvent : (schema : L2Schema) → schema.Event → DataEvent
  | cryptotick, e => .cryptotickBook e
  | cryptofeed, e => .cryptofeedBook e

/-- The value of the parameter. -/
def depSchema : L2Schema → String
  | cryptotick => "cryptotick"
  | cryptofeed => "cryptofeed"

/-- `cryptotick_update_state` or `cryptofeed_update_state`. -/
def updateBook : (schema : L2Schema) → L2State → schema.Event → L2State × Bool
  | cryptotick, state, e => cryptotickUpdateState state e
  | cryptofeed, state, e => cryptofeedUpdateState state e

end L2Schema

/-- What the stream does with an event: `_update_state`, then `filter_none(…).unique(maxsize=1)`. -/
def snapshotStep (schema : L2Schema) (depth : ℤ) (sampling : Sampling)
    (s : L2State × Option L2Snapshot) (e : schema.Event) :
    (L2State × Option L2Snapshot) × Option L2Snapshot :=
  let (state, out) := sampleSnapshot depth sampling (schema.updateBook s.1 e)
  let (seen, out) := Definition.unique s.2 out
  ((state, seen), out)

/-- The events that `L2SnapshotFD.stream` emits. -/
def snapshotStream (schema : L2Schema) (depth : ℤ) (sampling : Sampling)
    (events : List schema.Event) : List L2Snapshot :=
  (accumulate (snapshotStep schema depth sampling) ({}, none) events).2.reduceOption

/-- `_pass_if_needed` of `throttle`. -/
def passIfNeeded (window : Window) (lastTs : Option ℚ) (event : L2Snapshot) :
    Option ℚ × Option L2Snapshot :=
  match lastTs with
  | none => (some event.timestamp, some event)
  | some last =>
    if convertStrToSeconds window < event.timestamp - last then (some event.timestamp, some event)
    else (some last, none)

/-- `throttle`. -/
def throttle (window : Window) (events : List L2Snapshot) : List L2Snapshot :=
  (accumulate (passIfNeeded window) none events).2.reduceOption

/-- The step is the one of the definition's node. -/
theorem update_snapshotStep (stddev : List ℚ → ℚ) (queue : List TradeEvent) (schema : L2Schema)
    (depth : ℤ) (sampling : Sampling) (s : L2State × Option L2Snapshot) (e : schema.Event) :
    (Definition.l2Snapshot depth sampling (some schema.depSchema)).update stddev queue s
        (.bare (schema.dataEvent e)) =
      .ok (queue, (snapshotStep schema depth sampling s e).1,
        (snapshotStep schema depth sampling s e).2.map .l2Snapshot) := by
  cases schema <;> rfl

/-! ### The update of the book -/

/-- The state with another time of the last emitted snapshot. -/
def L2State.emittedAt (state : L2State) (ts : ℚ) : L2State := { state with lastEmittedTs := ts }

section Book

variable {schema : L2Schema} {state : L2State} {e : schema.Event} {depth : ℤ} {ts : ℚ}

@[simp] theorem L2State.emittedAt_emittedAt (state : L2State) (ts ts' : ℚ) :
    (state.emittedAt ts).emittedAt ts' = state.emittedAt ts' := rfl

@[simp] theorem stateSnapshot_emittedAt :
    stateSnapshot (state.emittedAt ts) depth = stateSnapshot state depth := rfl

theorem foldl_cryptofeedOrder_emittedAt (orders : List Order) (state : L2State) (ts : ℚ) :
    orders.foldl cryptofeedOrder (state.emittedAt ts) =
      (orders.foldl cryptofeedOrder state).emittedAt ts := by
  induction orders generalizing state with
  | nil => rfl
  | cons o os ih =>
    have horder : cryptofeedOrder (state.emittedAt ts) o =
        (cryptofeedOrder state o).emittedAt ts := by
      by_cases hzero : o.size = 0
      · cases hcur : state.orderBook.lookup o.side o.price <;>
          simp [cryptofeedOrder, L2State.emittedAt, hzero, hcur]
      · simp [cryptofeedOrder, L2State.emittedAt, hzero]
    rw [List.foldl_cons, List.foldl_cons, horder, ih]

/-- The time of the last emitted snapshot is neither read nor changed. -/
theorem L2Schema.updateBook_emittedAt (schema : L2Schema) (state : L2State) (ts : ℚ)
    (e : schema.Event) : schema.updateBook (state.emittedAt ts) e =
      ((schema.updateBook state e).1.emittedAt ts, (schema.updateBook state e).2) := by
  cases schema with
  | cryptotick =>
    by_cases hskip : CryptotickEvent.updateType e ≠ .snapshot ∧ state.inited = false
    · simp [L2Schema.updateBook, cryptotickUpdateState, L2State.emittedAt, hskip]
    · by_cases hsnap : CryptotickEvent.updateType e = .snapshot <;>
        simp_all [L2Schema.updateBook, cryptotickUpdateState, L2State.emittedAt]
  | cryptofeed =>
    have horders := fun start : L2State =>
      congrArg (fun state : L2State => ({ state with
        timestamp := CryptofeedEvent.timestamp e
        receiptTimestamp := CryptofeedEvent.receiptTimestamp e }, false))
        (foldl_cryptofeedOrder_emittedAt (CryptofeedEvent.orders e) start ts)
    simp only [L2Schema.updateBook]
    cases hdelta : CryptofeedEvent.delta e with
    | false =>
      rw [cryptofeedUpdateState_of_reset _ hdelta, cryptofeedUpdateState_of_reset _ hdelta]
      exact horders
        { state with inited := true, orderBook := .empty, obCount := state.obCount + 1 }
    | true =>
      cases hinited : state.inited with
      | false =>
        rw [cryptofeedUpdateState_of_skip hdelta hinited]
        exact cryptofeedUpdateState_of_skip hdelta hinited
      | true =>
        have hinited' : (state.emittedAt ts).inited = true := hinited
        rw [cryptofeedUpdateState_of_delta hdelta hinited,
          cryptofeedUpdateState_of_delta hdelta hinited']
        exact horders state

theorem L2Schema.lastEmittedTs_updateBook (schema : L2Schema) (state : L2State)
    (e : schema.Event) : (schema.updateBook state e).1.lastEmittedTs = state.lastEmittedTs :=
  congrArg (fun r => r.1.lastEmittedTs) (schema.updateBook_emittedAt state state.lastEmittedTs e)

/-- An event that is not skipped gives the state its time. -/
theorem L2Schema.timestamp_updateBook (schema : L2Schema) {e : schema.Event}
    (h : (schema.updateBook state e).2 = false) :
    (schema.updateBook state e).1.timestamp = schema.timestamp e := by
  cases schema with
  | cryptotick =>
    simp only [L2Schema.updateBook, cryptotickUpdateState] at h ⊢
    split_ifs at h ⊢ <;> rfl
  | cryptofeed =>
    simp only [L2Schema.updateBook, cryptofeedUpdateState] at h ⊢
    split_ifs at h ⊢ <;> rfl

end Book

/-! ### Sampling and throttling -/

/-- The states of the sampled stream `s` and of the raw stream `t` with a throttle behind it: the
same book, and the same time of the last snapshot that came out.  The raw stream has not seen a
snapshot that would pass since. -/
structure SampledAs (window : Window) (s t : L2State × Option L2Snapshot) (lastTs : Option ℚ) :
    Prop where
  state : s.1.emittedAt (-1) = t.1.emittedAt (-1)
  start : lastTs = none → s.1.lastEmittedTs < 0 ∧ s.2 = none ∧ t.2 = none
  last : ∀ last, lastTs = some last → 0 ≤ last ∧ s.1.lastEmittedTs = last ∧
    (∀ snap, s.2 = some snap → snap.timestamp = last) ∧
    ∀ snap, t.2 = some snap → snap.timestamp - last ≤ convertStrToSeconds window

/-- The raw stream with a throttle behind it. -/
def throttledStep (schema : L2Schema) (depth : ℤ) (window : Window) :=
  cascade (snapshotStep schema depth .raw) (passIfNeeded window)

section Step

variable {schema : L2Schema} {depth : ℤ} {window : Window} {s t : L2State × Option L2Snapshot}
  {lastTs : Option ℚ} {e : schema.Event}

/-- A skipped event changes the state of the book only. -/
theorem snapshotStep_of_skip {sampling : Sampling} (h : (schema.updateBook s.1 e).2 = true) :
    snapshotStep schema depth sampling s e = (((schema.updateBook s.1 e).1, s.2), none) := by
  cases sampling <;> simp [snapshotStep, sampleSnapshot, h, Definition.unique]

/-- Without sampling a snapshot is dropped if it is the one seen last. -/
theorem snapshotStep_raw (h : (schema.updateBook t.1 e).2 = false) {snap : L2Snapshot}
    (hsnap : stateSnapshot (schema.updateBook t.1 e).1 depth = snap) :
    snapshotStep schema depth .raw t e =
      if t.2 = some snap then (((schema.updateBook t.1 e).1, t.2), none)
      else (((schema.updateBook t.1 e).1, some snap), some snap) := by
  simp only [snapshotStep, sampleSnapshot, h, hsnap, Bool.false_eq_true, if_false,
    Definition.unique]
  split_ifs <;> rfl

/-- With a sampling period a new snapshot comes out a period after the last one. -/
theorem snapshotStep_period_of_emit (h : (schema.updateBook s.1 e).2 = false) {snap : L2Snapshot}
    (hsnap : stateSnapshot (schema.updateBook s.1 e).1 depth = snap) (hnew : s.2 ≠ some snap)
    (hemit : s.1.lastEmittedTs < 0 ∨
      convertStrToSeconds window < schema.timestamp e - s.1.lastEmittedTs) :
    snapshotStep schema depth (.period window) s e =
      (((schema.updateBook s.1 e).1.emittedAt (schema.timestamp e), some snap), some snap) := by
  rw [← schema.timestamp_updateBook h, ← schema.lastEmittedTs_updateBook s.1 e] at hemit
  rw [← schema.timestamp_updateBook h]
  have hsample : sampleSnapshot depth (.period window) (schema.updateBook s.1 e) =
      ((schema.updateBook s.1 e).1.emittedAt (schema.updateBook s.1 e).1.timestamp, some snap) := by
    simp only [sampleSnapshot, if_pos (And.intro hemit h)]
    exact congrArg (fun snap => (_, some snap)) hsnap
  simp only [snapshotStep, hsample, Definition.unique, if_neg hnew]

/-- Before that, nothing comes out. -/
theorem snapshotStep_period_of_wait (h : (schema.updateBook s.1 e).2 = false)
    (hwait : ¬ (s.1.lastEmittedTs < 0 ∨
      convertStrToSeconds window < schema.timestamp e - s.1.lastEmittedTs)) :
    snapshotStep schema depth (.period window) s e =
      (((schema.updateBook s.1 e).1, s.2), none) := by
  rw [← schema.timestamp_updateBook h, ← schema.lastEmittedTs_updateBook s.1 e] at hwait
  simp only [snapshotStep, sampleSnapshot, if_neg fun hemit => hwait (And.left hemit),
    Definition.unique]

/-- The streams stay together where nothing comes out. -/
theorem SampledAs.of_wait (h : SampledAs window s t lastTs) {state state' : L2State}
    (hstate : state.emittedAt (-1) = state'.emittedAt (-1))
    (hemitted : state.lastEmittedTs = s.1.lastEmittedTs) {seen : Option L2Snapshot}
    (hnone : lastTs = none → seen = none)
    (hseen : ∀ last, lastTs = some last → ∀ snap, seen = some snap →
      snap.timestamp - last ≤ convertStrToSeconds window) :
    SampledAs window (state, s.2) (state', seen) lastTs where
  state := hstate
  start hlast := by
    rw [hemitted]
    exact ⟨(h.start hlast).1, (h.start hlast).2.1, hnone hlast⟩
  last last hlast := by
    obtain ⟨hnonneg, hlastEmitted, hold, -⟩ := h.last last hlast
    rw [hemitted]
    exact ⟨hnonneg, hlastEmitted, hold, hseen last hlast⟩

/-- The streams stay together where a snapshot comes out of both. -/
theorem SampledAs.of_emit {state state' : L2State} {snap : L2Snapshot}
    (hstate : state.emittedAt (-1) = state'.emittedAt (-1)) (hts : 0 ≤ snap.timestamp) :
    SampledAs window (state.emittedAt snap.timestamp, some snap) (state', some snap)
      (some snap.timestamp) where
  state := hstate
  start hlast := by cases hlast
  last last hlast := by
    obtain rfl := Option.some.inj hlast
    refine ⟨hts, rfl, fun snap' hsnap' => ?_, fun snap' hsnap' => ?_⟩
    · rw [Option.some.inj hsnap']
    · rw [Option.some.inj hsnap', sub_self]
      exact convertStrToSeconds_nonneg window

/-- **One event** keeps the streams together, and they emit the same. -/
theorem SampledAs.step (h : SampledAs window s t lastTs) (hts : 0 ≤ schema.timestamp e) :
    SampledAs window (snapshotStep schema depth (.period window) s e).1
        (throttledStep schema depth window (t, lastTs) e).1.1
        (throttledStep schema depth window (t, lastTs) e).1.2 ∧
      (snapshotStep schema depth (.period window) s e).2 =
        (throttledStep schema depth window (t, lastTs) e).2 := by
  have hupdate := schema.updateBook_emittedAt s.1 (-1) e
  rw [h.state, schema.updateBook_emittedAt t.1 (-1) e] at hupdate
  have hstate := (congrArg Prod.fst hupdate).symm
  have hskip := congrArg Prod.snd hupdate
  have hemitted := schema.lastEmittedTs_updateBook s.1 e
  dsimp only at hstate hskip
  cases hs : (schema.updateBook s.1 e).2 with
  | true =>
    rw [snapshotStep_of_skip hs, throttledStep, cascade, snapshotStep_of_skip (hskip.trans hs)]
    exact ⟨h.of_wait hstate hemitted (fun hnone => (h.start hnone).2.2)
      fun last hlast => (h.last last hlast).2.2.2, rfl⟩
  | false =>
    -- both streams see the same snapshot
    set snap := stateSnapshot (schema.updateBook s.1 e).1 depth with hsnap
    have hsnap' : stateSnapshot (schema.updateBook t.1 e).1 depth = snap := by
      have hemitted (state : L2State) :
          stateSnapshot (state.emittedAt (-1)) depth = stateSnapshot state depth :=
        stateSnapshot_emittedAt
      rw [hsnap, ← hemitted, ← hstate, hemitted]
    have htime : snap.timestamp = schema.timestamp e := schema.timestamp_updateBook hs
    have hwindow := convertStrToSeconds_nonneg window
    rw [throttledStep, cascade, snapshotStep_raw (hskip.trans hs) hsnap']
    cases lastTs with
    | none =>
      obtain ⟨hneg, hseen, hseen'⟩ := h.start rfl
      rw [snapshotStep_period_of_emit hs hsnap.symm (by simp [hseen]) (.inl hneg),
        if_neg (by simp [hseen']), ← htime]
      exact ⟨.of_emit hstate (htime ▸ hts), rfl⟩
    | some last =>
      obtain ⟨hlast, hlastEmitted, hseen, hseen'⟩ := h.last last rfl
      by_cases hpass : convertStrToSeconds window < snap.timestamp - last
      · have hnew : s.2 ≠ some snap := fun heq => by linarith [hseen snap heq]
        have hnew' : t.2 ≠ some snap := fun heq => by linarith [hseen' snap heq]
        rw [snapshotStep_period_of_emit hs hsnap.symm hnew (.inr (by rwa [hlastEmitted, ← htime])),
          if_neg hnew', ← htime]
        dsimp only [passIfNeeded]
        rw [if_pos hpass]
        exact ⟨.of_emit hstate (htime ▸ hts), rfl⟩
      · have hwait : ¬ (s.1.lastEmittedTs < 0 ∨
            convertStrToSeconds window < schema.timestamp e - s.1.lastEmittedTs) := by
          rw [hlastEmitted, ← htime, not_or, not_lt]
          exact ⟨hlast, hpass⟩
        rw [snapshotStep_period_of_wait hs hwait]
        split_ifs with hold
        · exact ⟨h.of_wait hstate hemitted (fun hnone => by cases hnone)
            fun last' hlast' => (h.last last' hlast').2.2.2, rfl⟩
        · dsimp only [passIfNeeded]
          rw [if_neg hpass]
          refine ⟨h.of_wait hstate hemitted (fun hnone => by cases hnone)
            fun last' hlast' snap' hsnap' => ?_, rfl⟩
          rw [← Option.some.inj hlast', ← Option.some.inj hsnap']
          exact not_lt.1 hpass

end Step

/-- **The sampled stream is the throttled raw stream.** -/
theorem snapshotStream_period (schema : L2Schema) (depth : ℤ) (window : Window)
    (events : List schema.Event) (hts : ∀ e ∈ events, 0 ≤ schema.timestamp e) :
    snapshotStream schema depth (.period window) events =
      throttle window (snapshotStream schema depth .raw events) := by
  have hsame : (accumulate (snapshotStep schema depth (.period window)) ({}, none) events).2 =
      (accumulate (throttledStep schema depth window) (({}, none), none) events).2 :=
    accumulate_eq_of_rel (R := fun s t => SampledAs window s t.1 t.2)
      (fun e he s t h => h.step (hts e he))
      ⟨rfl, fun _ => ⟨by decide, rfl, rfl⟩, fun last h => by cases h⟩
  rw [snapshotStream, hsame, throttledStep, reduceOption_accumulate_cascade]
  rfl

/-- A SNAPSHOT and two changes, of which the first is too early for a sampling of one second. -/
def sampledEvents : List CryptotickEvent :=
  [⟨0, 0, .snapshot, [⟨.bid, 99, 5⟩, ⟨.ask, 101, 5⟩]⟩, ⟨1 / 2, 1 / 2, .add, [⟨.bid, 100, 1⟩]⟩,
    ⟨2, 2, .set, [⟨.bid, 100, 0⟩]⟩]

theorem snapshotStream_period_sampledEvents :
    (snapshotStream .cryptotick 25 (.period ⟨1, .s⟩) sampledEvents).length = 2 ∧
      snapshotStream .cryptotick 25 (.period ⟨1, .s⟩) sampledEvents =
        throttle ⟨1, .s⟩ (snapshotStream .cryptotick 25 .raw sampledEvents) :=
  ⟨by decide +kernel,
    snapshotStream_period .cryptotick 25 ⟨1, .s⟩ sampledEvents (by decide +kernel)⟩

end Svoe
