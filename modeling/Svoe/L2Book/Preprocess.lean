import Svoe.L2Book.UpdateState
import Svoe.Series.GroupBy
import Mathlib.Data.Prod.Lex

/-!
# From incremental rows to events

`CryptotickL2BookIncrementalData.preprocess_impl` groups the rows of an incremental frame by
timestamp and update type and makes one event of every group.  What splitting needs from it is
`preprocessImpl_append`: frames that follow each other in time are preprocessed independently.
-/

namespace Svoe

/-- A row of a processed L2 incremental frame. -/
structure L2Row where
  timestamp : ℚ
  receiptTimestamp : ℚ
  updateType : UpdateType
  side : Side
  price : ℚ
  size : ℚ
  deriving DecidableEq

namespace UpdateType

/-- The position of the update type's name in string order:
`'ADD' < 'SET' < 'SNAPSHOT' < 'SUB'`. -/
def rank : UpdateType → ℕ
  | .add => 0
  | .set => 1
  | .snapshot => 2
  | .sub => 3

theorem rank_injective : Function.Injective rank := by
  intro a b h
  cases a <;> cases b <;> first | rfl | cases h

instance : LinearOrder UpdateType := LinearOrder.lift' rank rank_injective

end UpdateType

/-- The group key of a row: `['timestamp', 'update_type']`. -/
def L2Row.groupKey (r : L2Row) : ℚ ×ₗ UpdateType := toLex (r.timestamp, r.updateType)

/-- The order a row stands for. -/
def L2Row.order (r : L2Row) : Order := ⟨r.side, r.price, r.size⟩

/-- `dfs[i]['timestamp'].iloc[0]`, the sort key of a group. -/
def firstTimestamp (df : List L2Row) : ℚ := (df.head?.map L2Row.timestamp).getD 0

/-- The event of a group: the fields of its first row, and one order for each row. -/
def groupEvent (df : List L2Row) : Option CryptotickEvent :=
  df.head?.map fun r => ⟨r.timestamp, r.receiptTimestamp, r.updateType, df.map L2Row.order⟩

/-- `CryptotickL2BookIncrementalData.preprocess_impl`. -/
def preprocessImpl (df : List L2Row) : List CryptotickEvent :=
  let dfs := (Series.groupBy L2Row.groupKey df).map Prod.snd
  let dfs := dfs.insertionSort fun g g' => firstTimestamp g ≤ firstTimestamp g'
  dfs.filterMap groupEvent

theorem firstTimestamp_of_mem_groupBy {df : List L2Row} {g : (ℚ ×ₗ UpdateType) × List L2Row}
    (h : g ∈ Series.groupBy L2Row.groupKey df) : firstTimestamp g.2 = (ofLex g.1).1 := by
  obtain ⟨k, g⟩ := g
  obtain ⟨r, g', rfl, -, rfl⟩ := Series.exists_cons_of_mem_groupBy h
  rfl

/-- The groups already come in time order: sorting them again changes nothing. -/
theorem preprocessImpl_eq (df : List L2Row) :
    preprocessImpl df = ((Series.groupBy L2Row.groupKey df).map Prod.snd).filterMap groupEvent := by
  rw [preprocessImpl, List.Pairwise.insertionSort_eq]
  rw [List.pairwise_map]
  refine (Series.pairwise_groupBy L2Row.groupKey df).imp_of_mem fun {g g'} hg hg' hlt => ?_
  rw [firstTimestamp_of_mem_groupBy hg, firstTimestamp_of_mem_groupBy hg']
  exact Prod.Lex.monotone_fst_ofLex hlt.le

@[simp] theorem preprocessImpl_nil : preprocessImpl [] = [] := rfl

/-- Frames that follow each other in time are preprocessed independently. -/
theorem preprocessImpl_append {df df' : List L2Row}
    (h : ∀ r ∈ df, ∀ r' ∈ df', r.timestamp < r'.timestamp) :
    preprocessImpl (df ++ df') = preprocessImpl df ++ preprocessImpl df' := by
  simp only [preprocessImpl_eq]
  rw [Series.groupBy_append, List.map_append, List.filterMap_append]
  exact fun r hr r' hr' => Prod.Lex.toLex_lt_toLex.2 (.inl (h r hr r' hr'))

/-- A frame whose rows share timestamp and update type is one event. -/
theorem preprocessImpl_of_forall_eq {r : L2Row} {df : List L2Row}
    (h : ∀ r' ∈ df, r'.timestamp = r.timestamp ∧ r'.updateType = r.updateType) :
    preprocessImpl (r :: df) =
      [⟨r.timestamp, r.receiptTimestamp, r.updateType, (r :: df).map L2Row.order⟩] := by
  rw [preprocessImpl_eq, Series.groupBy_of_forall_eq (k := r.groupKey) (List.cons_ne_nil _ _)]
  · simp [groupEvent]
  · intro r' hr'
    rcases List.mem_cons.1 hr' with rfl | hr'
    · rfl
    · simp [L2Row.groupKey, h r' hr']

/-- An event carries the timestamp and the update type of one of the rows. -/
theorem exists_row_of_mem_preprocessImpl {df : List L2Row} {e : CryptotickEvent}
    (h : e ∈ preprocessImpl df) :
    ∃ r ∈ df, r.timestamp = e.timestamp ∧ r.updateType = e.updateType := by
  rw [preprocessImpl_eq] at h
  obtain ⟨g, hg, he⟩ := List.mem_filterMap.1 h
  obtain ⟨⟨k, g⟩, hk, rfl⟩ := List.mem_map.1 hg
  obtain ⟨r, g', rfl, hr, -⟩ := Series.exists_cons_of_mem_groupBy hk
  simp only [groupEvent, List.head?_cons, Option.map_some, Option.some.injEq] at he
  exact ⟨r, hr, by rw [← he], by rw [← he]⟩

/-- Every row ends up in an event of its timestamp and update type. -/
theorem exists_event_of_mem {df : List L2Row} {r : L2Row} (h : r ∈ df) :
    ∃ e ∈ preprocessImpl df, e.timestamp = r.timestamp ∧ e.updateType = r.updateType := by
  obtain ⟨g, hk⟩ : ∃ g, (r.groupKey, g) ∈ Series.groupBy L2Row.groupKey df :=
    ⟨_, Series.mem_groupBy.2 ⟨⟨r, h, rfl⟩, rfl⟩⟩
  obtain ⟨r', g', hg, -, he⟩ := Series.exists_cons_of_mem_groupBy hk
  have he' : r'.timestamp = r.timestamp ∧ r'.updateType = r.updateType := by
    simpa [L2Row.groupKey] using he
  rw [preprocessImpl_eq]
  refine ⟨⟨r'.timestamp, r'.receiptTimestamp, r'.updateType, (r' :: g').map L2Row.order⟩,
    List.mem_filterMap.2 ⟨_, List.mem_map.2 ⟨_, hk, rfl⟩, ?_⟩, he'.1, he'.2⟩
  rw [hg]
  rfl

/-- A frame has a SNAPSHOT event when it has a SNAPSHOT row. -/
theorem exists_snapshot_event_iff {df : List L2Row} :
    (∃ e ∈ preprocessImpl df, e.updateType = .snapshot) ↔
      ∃ r ∈ df, r.updateType = .snapshot := by
  constructor
  · rintro ⟨e, he, hs⟩
    obtain ⟨r, hr, -, hu⟩ := exists_row_of_mem_preprocessImpl he
    exact ⟨r, hr, hu.trans hs⟩
  · rintro ⟨r, hr, hs⟩
    obtain ⟨e, he, -, hu⟩ := exists_event_of_mem hr
    exact ⟨e, he, hu.trans hs⟩

end Svoe
