import Svoe.Features.StreamTree
import Svoe.Series.Accumulate

/-!
# The stream of the L2 snapshot feature

`l2SnapshotStream` is the stream of `L2SnapshotFD` with raw sampling: every event that is not
skipped gives a snapshot, and a snapshot equal to the one before is dropped.

* `l2SnapshotStream_append_of_not_snapshot` : events before the first SNAPSHOT change nothing.
* `accumulate_of_snapshot` : from a SNAPSHOT on the outputs do not depend on what came before, if
  nothing before it has its timestamp.
-/

namespace Svoe

open Series

variable {F : Type*}

/-- The columns of a cryptotick event besides its timestamp. -/
structure L2Delta where
  receiptTimestamp : ℚ
  updateType : UpdateType
  orders : List Order
  deriving DecidableEq

/-- A row of an L2 block as a cryptotick event. -/
def Event.toCryptotick (e : Event L2Delta) : CryptotickEvent :=
  ⟨e.timestamp, e.data.receiptTimestamp, e.data.updateType, e.data.orders⟩

/-- What the stream does with an event: `_update_state`, then `filter_none(…).unique(maxsize=1)`. -/
def l2SnapshotStep (depth : ℤ) (s : L2State × Option L2Snapshot) (e : Event L2Delta) :
    (L2State × Option L2Snapshot) × Option (Event L2Snapshot) :=
  let (state, out) := updateStateCryptotick depth .raw s.1 e.toCryptotick
  let (seen, out) := Definition.unique s.2 out
  ((state, seen), out.map fun snap => ⟨snap.timestamp, snap⟩)

/-- The outputs of `L2SnapshotFD`'s stream for the events of its dependency. -/
def l2SnapshotStream (depth : ℤ) (named : List (F × Event L2Delta)) : List (Event L2Snapshot) :=
  (accumulate (l2SnapshotStep depth) ({}, none) (named.map Prod.snd)).2.reduceOption

/-- The step is the one of the definition's node. -/
theorem update_l2Snapshot (stddev : List ℚ → ℚ) (queue : List TradeEvent) (depth : ℤ)
    (s : L2State × Option L2Snapshot) (e : Event L2Delta) {depSchema : Option String}
    (hs : depSchema = none ∨ depSchema = some "cryptotick") :
    (Definition.l2Snapshot depth .raw depSchema).update stddev queue s
        (.bare (.cryptotickBook e.toCryptotick)) =
      .ok (queue, (l2SnapshotStep depth s e).1,
        (l2SnapshotStep depth s e).2.map fun o => .l2Snapshot o.data) := by
  obtain ⟨state, seen⟩ := s
  rw [Definition.update, Definition.updateL2Snapshot, if_pos hs]
  simp only [Elem.columns, Except.map, l2SnapshotStep, Option.map_map, Function.comp_def]

section Step

variable {depth : ℤ} {s t : L2State × Option L2Snapshot} {e : Event L2Delta}

/-- Before the first SNAPSHOT an event is skipped. -/
theorem l2SnapshotStep_of_not_inited (hs : s.1.inited = false)
    (he : e.data.updateType ≠ .snapshot) : l2SnapshotStep depth s e = (s, none) := by
  have hskip : cryptotickUpdateState s.1 e.toCryptotick = (s.1, true) := if_pos ⟨he, hs⟩
  simp only [l2SnapshotStep, updateStateCryptotick, hskip, sampleSnapshot, Definition.unique]
  rfl

/-- The snapshot of a book at the time of an event. -/
def snapshotAt (depth : ℤ) (book : OrderBook) (e : Event L2Delta) : L2Snapshot :=
  stateSnapshot
    { timestamp := e.timestamp
      receiptTimestamp := e.data.receiptTimestamp
      orderBook := book } depth

/-- The book after an event. -/
def bookAfter (book : OrderBook) (e : Event L2Delta) : OrderBook :=
  e.data.orders.foldl (applyOrder e.data.updateType)
    (if e.data.updateType = .snapshot then .empty else book)

/-- An event that is not skipped gives the snapshot of the new book. -/
theorem l2SnapshotStep_of_inited (depth : ℤ)
    (h : s.1.inited = true ∨ e.data.updateType = .snapshot) :
    (l2SnapshotStep depth s e).1.1.inited = true ∧
      (l2SnapshotStep depth s e).1.1.orderBook = bookAfter s.1.orderBook e ∧
      (l2SnapshotStep depth s e).1.2 = some (snapshotAt depth (bookAfter s.1.orderBook e) e) ∧
      (l2SnapshotStep depth s e).2 =
        if s.2 = some (snapshotAt depth (bookAfter s.1.orderBook e) e) then none
        else some ⟨e.timestamp, snapshotAt depth (bookAfter s.1.orderBook e) e⟩ := by
  have hskip : ¬ (e.toCryptotick.updateType ≠ .snapshot ∧ s.1.inited = false) := by
    rcases h with h | h <;> simp [h, Event.toCryptotick]
  have hbook : (cryptotickUpdateState s.1 e.toCryptotick).1.orderBook =
      bookAfter s.1.orderBook e := by
    rw [cryptotickUpdateState, if_neg hskip, bookAfter]
    by_cases hs : e.data.updateType = .snapshot <;> simp [hs, Event.toCryptotick]
  have hsnap : stateSnapshot (cryptotickUpdateState s.1 e.toCryptotick).1 depth =
      snapshotAt depth (bookAfter s.1.orderBook e) e := by
    rw [snapshotAt, stateSnapshot, stateSnapshot, hbook, cryptotickUpdateState, if_neg hskip]
    rfl
  have hout : (cryptotickUpdateState s.1 e.toCryptotick).2 = false := by
    rw [cryptotickUpdateState, if_neg hskip]
  have hinited : (cryptotickUpdateState s.1 e.toCryptotick).1.inited = true := by
    rw [inited_cryptotickUpdateState]
    rcases h with h | h <;> simp [h, Event.toCryptotick]
  have hupdate : updateStateCryptotick depth .raw s.1 e.toCryptotick =
      ((cryptotickUpdateState s.1 e.toCryptotick).1,
        some (snapshotAt depth (bookAfter s.1.orderBook e) e)) := by
    simp only [updateStateCryptotick, sampleSnapshot, hout, hsnap, Bool.false_eq_true, if_false]
  simp only [l2SnapshotStep, hupdate, Definition.unique, hbook, hinited, true_and]
  split_ifs with hseen
  · exact ⟨hseen, rfl⟩
  · exact ⟨rfl, rfl⟩

theorem timestamp_of_l2SnapshotStep {o : Event L2Snapshot}
    (h : (l2SnapshotStep depth s e).2 = some o) : o.timestamp = e.timestamp := by
  by_cases hrun : s.1.inited = true ∨ e.data.updateType = .snapshot
  · rw [(l2SnapshotStep_of_inited depth hrun).2.2.2] at h
    split_ifs at h
    rw [← Option.some.inj h]
  · rw [not_or, Bool.not_eq_true] at hrun
    rw [l2SnapshotStep_of_not_inited hrun.1 hrun.2] at h
    cases h

/-- What the stream has seen last is at the time of an event. -/
theorem seen_of_l2SnapshotStep {snap : L2Snapshot}
    (h : (l2SnapshotStep depth s e).1.2 = some snap) :
    s.2 = some snap ∨ snap.timestamp = e.timestamp := by
  by_cases hrun : s.1.inited = true ∨ e.data.updateType = .snapshot
  · rw [(l2SnapshotStep_of_inited depth hrun).2.2.1] at h
    exact .inr (Option.some.inj h ▸ rfl)
  · rw [not_or, Bool.not_eq_true] at hrun
    rw [l2SnapshotStep_of_not_inited hrun.1 hrun.2] at h
    exact .inl h

/-- States that the stream cannot tell apart: the same book, and the same snapshot seen last. -/
def SameBook (s t : L2State × Option L2Snapshot) : Prop :=
  s.1.inited = t.1.inited ∧ s.1.orderBook = t.1.orderBook ∧ s.2 = t.2

/-- An event keeps states the same, and has the same output. -/
theorem SameBook.step (h : SameBook s t) (depth : ℤ) (e : Event L2Delta) :
    SameBook (l2SnapshotStep depth s e).1 (l2SnapshotStep depth t e).1 ∧
      (l2SnapshotStep depth s e).2 = (l2SnapshotStep depth t e).2 := by
  obtain ⟨hinited, hbook, hseen⟩ := h
  by_cases hrun : s.1.inited = true ∨ e.data.updateType = .snapshot
  · obtain ⟨hi, hb, hs, ho⟩ := l2SnapshotStep_of_inited depth hrun
    obtain ⟨hi', hb', hs', ho'⟩ := l2SnapshotStep_of_inited depth (hinited ▸ hrun)
    exact ⟨⟨hi.trans hi'.symm, by rw [hb, hb', hbook], by rw [hs, hs', hbook]⟩,
      by rw [ho, ho', hbook, hseen]⟩
  · rw [not_or, Bool.not_eq_true] at hrun
    rw [l2SnapshotStep_of_not_inited hrun.1 hrun.2,
      l2SnapshotStep_of_not_inited (hinited ▸ hrun.1) hrun.2]
    exact ⟨⟨hinited, hbook, hseen⟩, rfl⟩

/-- A SNAPSHOT makes states the same, if its snapshot was not the one seen last. -/
theorem sameBook_of_snapshot (depth : ℤ) (he : e.data.updateType = .snapshot)
    (hs : ∀ snap, s.2 = some snap → snap.timestamp ≠ e.timestamp)
    (ht : ∀ snap, t.2 = some snap → snap.timestamp ≠ e.timestamp) :
    SameBook (l2SnapshotStep depth s e).1 (l2SnapshotStep depth t e).1 ∧
      (l2SnapshotStep depth s e).2 = (l2SnapshotStep depth t e).2 := by
  have hbook : bookAfter s.1.orderBook e = bookAfter t.1.orderBook e := by
    rw [bookAfter, bookAfter, if_pos he, if_pos he]
  obtain ⟨hi, hb, hseen, ho⟩ := l2SnapshotStep_of_inited (s := s) depth (.inr he)
  obtain ⟨hi', hb', hseen', ho'⟩ := l2SnapshotStep_of_inited (s := t) depth (.inr he)
  refine ⟨⟨hi.trans hi'.symm, by rw [hb, hb', hbook], by rw [hseen, hseen', hbook]⟩, ?_⟩
  rw [ho, ho', if_neg fun h => hs _ h rfl, if_neg fun h => ht _ h rfl, hbook]

end Step

section Run

variable {depth : ℤ} {s t : L2State × Option L2Snapshot} {e : Event L2Delta}
  {l : List (Event L2Delta)}

/-- **From a SNAPSHOT on the outputs do not depend on what came before.** -/
theorem accumulate_of_snapshot (he : e.data.updateType = .snapshot)
    (hs : ∀ snap, s.2 = some snap → snap.timestamp ≠ e.timestamp)
    (ht : ∀ snap, t.2 = some snap → snap.timestamp ≠ e.timestamp) :
    (accumulate (l2SnapshotStep depth) s (e :: l)).2 =
      (accumulate (l2SnapshotStep depth) t (e :: l)).2 := by
  obtain ⟨hsame, hout⟩ := sameBook_of_snapshot depth he hs ht
  have hrest : (accumulate (l2SnapshotStep depth) (l2SnapshotStep depth s e).1 l).2 =
      (accumulate (l2SnapshotStep depth) (l2SnapshotStep depth t e).1 l).2 :=
    accumulate_eq_of_rel (R := SameBook) (fun e _ _ _ h => h.step depth e) hsame
  rw [accumulate_cons, accumulate_cons, hout, hrest]

/-- Events before the first SNAPSHOT change nothing. -/
theorem accumulate_of_not_snapshot (hs : s.1.inited = false)
    (hl : ∀ e ∈ l, e.data.updateType ≠ .snapshot) :
    accumulate (l2SnapshotStep depth) s l = (s, List.replicate l.length none) :=
  accumulate_of_step_eq fun e he => l2SnapshotStep_of_not_inited hs (hl e he)

/-- What the stream has seen last is at the time of one of the events. -/
theorem exists_of_seen {snap : L2Snapshot}
    (h : (accumulate (l2SnapshotStep depth) ({}, none) l).1.2 = some snap) :
    ∃ e ∈ l, snap.timestamp = e.timestamp := by
  have hkeep : ∀ snap, (accumulate (l2SnapshotStep depth) ({}, none) l).1.2 = some snap →
      ∃ e ∈ l, snap.timestamp = e.timestamp := by
    refine accumulate_keeps (P := fun s : L2State × Option L2Snapshot => ∀ snap, s.2 = some snap →
      ∃ e ∈ l, snap.timestamp = e.timestamp) (fun e he s hs snap hsnap => ?_) (by simp)
    exact (seen_of_l2SnapshotStep hsnap).elim (hs snap) fun h => ⟨e, he, h⟩
  exact hkeep snap h

/-- The outputs are at the times of some of the events, in their order. -/
theorem sublist_timestamps (depth : ℤ) (s : L2State × Option L2Snapshot)
    (l : List (Event L2Delta)) :
    ((accumulate (l2SnapshotStep depth) s l).2.reduceOption.map Event.timestamp).Sublist
      (l.map Event.timestamp) :=
  sublist_map_reduceOption_accumulate (fun _ _ _ h => timestamp_of_l2SnapshotStep h) s l

theorem exists_of_mem_outputs {o : Event L2Snapshot}
    (ho : o ∈ (accumulate (l2SnapshotStep depth) s l).2.reduceOption) :
    ∃ e ∈ l, e.timestamp = o.timestamp :=
  List.mem_map.1 ((sublist_timestamps _ s l).subset (List.mem_map_of_mem ho))

@[simp] theorem l2SnapshotStream_named (f : F) (l : List (Event L2Delta)) :
    l2SnapshotStream depth (l.map fun e => (f, e)) =
      (accumulate (l2SnapshotStep depth) ({}, none) l).2.reduceOption := by
  simp [l2SnapshotStream, Function.comp_def]

/-- Events before the first SNAPSHOT have no outputs, and change none. -/
theorem l2SnapshotStream_append_of_not_snapshot (f : F) {l' : List (Event L2Delta)}
    (hl : ∀ e ∈ l, e.data.updateType ≠ .snapshot) :
    l2SnapshotStream depth ((l ++ l').map fun e => (f, e)) =
      l2SnapshotStream depth (l'.map fun e => (f, e)) := by
  rw [l2SnapshotStream_named, l2SnapshotStream_named, accumulate_append,
    accumulate_of_not_snapshot rfl hl, List.reduceOption_append,
    List.reduceOption_replicate_none, List.nil_append]

/-- **The outputs in an interval that starts with a SNAPSHOT** can be computed from the SNAPSHOT
on: what is before the interval warms up to nothing that matters, what is behind it comes too
late. -/
theorem filter_l2SnapshotStream (depth : ℤ) (f : F) {before warm behind : List (Event L2Delta)} {stop : ℚ}
    (he : e.data.updateType = .snapshot) (hwarm : ∀ x ∈ warm, x.data.updateType ≠ .snapshot)
    (hlow : ∀ x ∈ before ++ warm, x.timestamp < e.timestamp)
    (hhigh : ∀ x ∈ behind, stop < x.timestamp) :
    (l2SnapshotStream depth ((warm ++ e :: l).map fun e => (f, e))).filter
        (fun o => e.timestamp ≤ o.timestamp ∧ o.timestamp ≤ stop) =
      (l2SnapshotStream depth ((before ++ (warm ++ e :: l) ++ behind).map fun e => (f, e))).filter
        fun o => e.timestamp ≤ o.timestamp ∧ o.timestamp ≤ stop := by
  set run := accumulate (l2SnapshotStep depth) ({}, none) (before ++ warm) with hrun
  have hseen : ∀ snap, run.1.2 = some snap → snap.timestamp ≠ e.timestamp := fun snap hsnap => by
    obtain ⟨x, hx, hts⟩ := exists_of_seen hsnap
    exact hts ▸ (hlow x hx).ne
  have hsame : (accumulate (l2SnapshotStep depth) run.1 (e :: l)).2 =
      (accumulate (l2SnapshotStep depth) ({}, none) (e :: l)).2 :=
    accumulate_of_snapshot he hseen (by simp)
  -- nothing that comes out before the SNAPSHOT or behind the group is in the interval
  have hbefore : (run.2.reduceOption.filter fun o => e.timestamp ≤ o.timestamp ∧
      o.timestamp ≤ stop) = [] := by
    refine List.filter_eq_nil_iff.2 fun o ho hin => ?_
    obtain ⟨x, hx, hts⟩ := exists_of_mem_outputs ho
    exact (hlow x hx).not_ge (hts ▸ (of_decide_eq_true hin).1)
  have hbehind : ∀ s, ((accumulate (l2SnapshotStep depth) s behind).2.reduceOption.filter
      fun o => e.timestamp ≤ o.timestamp ∧ o.timestamp ≤ stop) = [] := fun s => by
    refine List.filter_eq_nil_iff.2 fun o ho hin => ?_
    obtain ⟨x, hx, hts⟩ := exists_of_mem_outputs ho
    exact (hhigh x hx).not_ge (hts ▸ (of_decide_eq_true hin).2)
  rw [l2SnapshotStream_append_of_not_snapshot f hwarm, l2SnapshotStream_named,
    l2SnapshotStream_named, ← List.append_assoc, accumulate_append, accumulate_append, ← hrun,
    hsame, List.reduceOption_append, List.reduceOption_append, List.filter_append,
    List.filter_append, hbefore, hbehind, List.nil_append, List.append_nil]

end Run

end Svoe
