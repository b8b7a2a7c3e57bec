import Svoe.L2Book.Preprocess
import Svoe.Series.AsOf
import Mathlib.Data.List.SplitBy
import Mathlib.Algebra.BigOperators.Group.List.Basic

/-!
# Regrouping the rows of a timestamp

`preprocess_impl` makes one event of all rows of a timestamp and kind, so the rows of one timestamp
are applied kind by kind, ADD before SET before SNAPSHOT before SUB, whatever order they came in.

* `rowEvents` : the rows in the frame's order, a run of SNAPSHOT rows being one reset.
* `lookup_replay_preprocessImpl` : what the rows of one timestamp leave on a level.
* `preservesMeaning_iff` : when regrouping changes no book.
-/

namespace Svoe

/-! ### Rows in the frame's order -/

/-- Two neighbouring rows belong to one reset. -/
def sameReset (r r' : L2Row) : Bool :=
  decide (r.updateType = .snapshot ∧ r'.updateType = .snapshot ∧ r.timestamp = r'.timestamp)

/-- The rows as events, in the frame's order: a maximal run of consecutive SNAPSHOT rows of one
timestamp is one event, every other row is an event of its own. -/
def rowEvents (df : List L2Row) : List CryptotickEvent :=
  (df.splitBy sameReset).filterMap groupEvent

/-- Replaying the events of the frame gives, at the end of every timestamp, the book of its
rows. -/
def PreservesMeaning (state : L2State) (df : List L2Row) : Prop :=
  ∀ t : ℚ, (replay state ((preprocessImpl df).filter fun e => e.timestamp ≤ t)).orderBook =
    (replay state ((rowEvents df).filter fun e => e.timestamp ≤ t)).orderBook

/-! ### Events in the order of time -/

/-- A way to make events of rows that treats the timestamps one after the other, and keeps the
timestamps and kinds that occur. -/
structure Chronological (f : List L2Row → List CryptotickEvent) : Prop where
  append : ∀ {df df' : List L2Row}, (∀ r ∈ df, ∀ r' ∈ df', r.timestamp < r'.timestamp) →
    f (df ++ df') = f df ++ f df'
  exists_row : ∀ {df : List L2Row} {e : CryptotickEvent}, e ∈ f df →
    ∃ r ∈ df, r.timestamp = e.timestamp ∧ r.updateType = e.updateType
  exists_event : ∀ {df : List L2Row} {r : L2Row}, r ∈ df →
    ∃ e ∈ f df, e.timestamp = r.timestamp ∧ e.updateType = r.updateType

theorem chronological_preprocessImpl : Chronological preprocessImpl :=
  ⟨preprocessImpl_append, exists_row_of_mem_preprocessImpl, exists_event_of_mem⟩

/-- The rows of a run share timestamp and kind. -/
theorem eq_of_mem_run {r r' : L2Row} {run : List L2Row}
    (h : (r :: run).IsChain fun x y => sameReset x y) (hr' : r' ∈ r :: run) :
    r.timestamp = r'.timestamp ∧ r.updateType = r'.updateType := by
  induction run generalizing r with
  | nil =>
    obtain rfl := List.mem_singleton.1 hr'
    exact ⟨rfl, rfl⟩
  | cons x run ih =>
    rcases List.mem_cons.1 hr' with rfl | hr'
    · exact ⟨rfl, rfl⟩
    · obtain ⟨hx, hrun⟩ := List.isChain_cons_cons.1 h
      obtain ⟨hts, hkind⟩ := ih hrun hr'
      obtain ⟨hs, hs', ht⟩ := of_decide_eq_true hx
      exact ⟨ht.trans hts, (hs.trans hs'.symm).trans hkind⟩

theorem chronological_rowEvents : Chronological rowEvents where
  append h := by
    rw [rowEvents, List.splitBy_append, List.filterMap_append]
    · rfl
    · intro x hx y hy
      have hlt := h x (List.mem_of_getLast? hx) y (List.mem_of_mem_head? hy)
      exact decide_eq_false fun hxy => hlt.ne hxy.2.2
  exists_row := by
    intro df e he
    obtain ⟨run, hrun, he⟩ := List.mem_filterMap.1 he
    obtain ⟨r, hr, rfl⟩ := Option.map_eq_some_iff.1 he
    refine ⟨r, ?_, rfl, rfl⟩
    rw [← List.flatten_splitBy sameReset df]
    exact List.mem_flatten.2 ⟨run, hrun, List.mem_of_mem_head? hr⟩
  exists_event := by
    intro df r hr
    rw [← List.flatten_splitBy sameReset df] at hr
    obtain ⟨run, hrun, hr⟩ := List.mem_flatten.1 hr
    obtain ⟨r₀, run, rfl⟩ := List.exists_cons_of_ne_nil (List.ne_nil_of_mem hr)
    exact ⟨_, List.mem_filterMap.2 ⟨_, hrun, rfl⟩,
      eq_of_mem_run (List.isChain_of_mem_splitBy hrun) hr⟩

namespace Chronological

variable {f : List L2Row → List CryptotickEvent} {df : List L2Row}

/-- The events up to a time are those of the rows up to that time. -/
theorem filter_le (hf : Chronological f)
    (hsorted : df.Pairwise fun r r' => r.timestamp ≤ r'.timestamp) (t : ℚ) :
    (f df).filter (fun e => e.timestamp ≤ t) = f (df.filter fun r => r.timestamp ≤ t) := by
  have hsplit : df.filter (fun r => r.timestamp ≤ t) ++ df.filter (fun r => t < r.timestamp) =
      df := by
    rw [Series.filter_append_filter hsorted fun a _ b _ ha hb => ha.trans_lt hb]
    simp [le_or_gt]
  have hup : (f (df.filter fun r => r.timestamp ≤ t)).filter (fun e => e.timestamp ≤ t) =
      f (df.filter fun r => r.timestamp ≤ t) := by
    refine List.filter_eq_self.2 fun e he => ?_
    obtain ⟨r, hr, hts, -⟩ := hf.exists_row he
    simpa [← hts] using (List.mem_filter.1 hr).2
  have hdown : (f (df.filter fun r => t < r.timestamp)).filter (fun e => e.timestamp ≤ t) = [] := by
    refine List.filter_eq_nil_iff.2 fun e he => ?_
    obtain ⟨r, hr, hts, -⟩ := hf.exists_row he
    simpa [← hts] using (List.mem_filter.1 hr).2
  have happend : f (df.filter (fun r => r.timestamp ≤ t) ++ df.filter fun r => t < r.timestamp) =
      f (df.filter fun r => r.timestamp ≤ t) ++ f (df.filter fun r => t < r.timestamp) :=
    hf.append fun r hr r' hr' => by
      simp only [List.mem_filter, decide_eq_true_eq] at hr hr'
      exact hr.2.trans_lt hr'.2
  rw [hsplit] at happend
  rw [happend, List.filter_append, hup, hdown, List.append_nil]

/-- The rows up to a time are those before it and those at it. -/
theorem filter_le_eq (hf : Chronological f)
    (hsorted : df.Pairwise fun r r' => r.timestamp ≤ r'.timestamp) (t : ℚ) :
    f (df.filter fun r => r.timestamp ≤ t) =
      f (df.filter fun r => r.timestamp < t) ++ f (df.filter fun r => r.timestamp = t) := by
  have hsplit := Series.filter_append_filter (P := fun r : L2Row => r.timestamp < t)
    (Q := fun r => r.timestamp = t) hsorted fun a _ b _ ha hb => ha.trans_eq hb.symm
  rw [← hf.append, hsplit]
  · simp only [le_iff_lt_or_eq]
  · intro r hr r' hr'
    simp only [List.mem_filter, decide_eq_true_eq] at hr hr'
    exact hr.2.trans_eq hr'.2.symm

theorem inited_replay (hf : Chronological f) (state : L2State) :
    (replay state (f df)).inited = true ↔
      state.inited = true ∨ ∃ r ∈ df, r.updateType = .snapshot := by
  rw [Svoe.inited_replay, Bool.or_eq_true, List.any_eq_true]
  refine or_congr_right ⟨?_, ?_⟩
  · rintro ⟨e, he, hs⟩
    obtain ⟨r, hr, -, hkind⟩ := hf.exists_row he
    exact ⟨r, hr, hkind.trans (of_decide_eq_true hs)⟩
  · rintro ⟨r, hr, hs⟩
    obtain ⟨e, he, -, hkind⟩ := hf.exists_event hr
    exact ⟨e, he, decide_eq_true (hkind.trans hs)⟩

theorem replay_of_not_inited (hf : Chronological f) {state : L2State}
    (h : ¬ (state.inited = true ∨ ∃ r ∈ df, r.updateType = .snapshot)) :
    replay state (f df) = state := by
  obtain ⟨hi, hs⟩ := not_or.1 h
  refine Svoe.replay_of_not_inited (Bool.eq_false_iff.2 hi) fun e he hkind => hs ?_
  obtain ⟨r, hr, -, hkind'⟩ := hf.exists_row he
  exact ⟨r, hr, hkind'.trans hkind⟩

end Chronological

/-! ### Kind by kind -/

/-- The rows of one kind. -/
def ofKind (u : UpdateType) (df : List L2Row) : List L2Row := df.filter fun r => r.updateType = u

/-- The sizes of the rows of one kind on a level. -/
def levelSizes (u : UpdateType) (df : List L2Row) (s : Side) (p : ℚ) : List ℚ :=
  ((ofKind u df).filter fun r => s = r.side ∧ p = r.price).map L2Row.size

/-- What the rows of one timestamp leave on a level when they are applied kind by kind.  The sum of
its SNAPSHOT rows, if the timestamp has any; else the last SET, if the level has one; else the size
before with the ADD rows on it; from that the SUB rows are taken off. -/
def kindOrderSize (df : List L2Row) (s : Side) (p : ℚ) (cur : Option ℚ) : Option ℚ :=
  let start :=
    if ofKind .snapshot df ≠ [] then
      if levelSizes .snapshot df s p = [] then none else some (levelSizes .snapshot df s p).sum
    else match (levelSizes .set df s p).getLast? with
      | some size => if size = 0 then none else some size
      | none =>
        if levelSizes .add df s p = [] then cur
        else some (cur.getD 0 + (levelSizes .add df s p).sum)
  (levelSizes .sub df s p).foldl (fun cur size => UpdateType.sub.onLevel size cur) start

/-- The event of the rows of one kind, if there are any. -/
def kindEvents (u : UpdateType) (df : List L2Row) : List CryptotickEvent :=
  (groupEvent (ofKind u df)).toList

variable {df : List L2Row} {u : UpdateType} {s : Side} {p : ℚ} {cur : Option ℚ} {state : L2State}

theorem ofKind_ne_nil_iff : ofKind u df ≠ [] ↔ ∃ r ∈ df, r.updateType = u := by
  simp [ofKind, List.filter_eq_nil_iff]

theorem updateType_of_mem_kindEvents {e : CryptotickEvent} (he : e ∈ kindEvents u df) :
    e.updateType = u ∧ e.orders = (ofKind u df).map L2Row.order := by
  obtain ⟨r, hr, rfl⟩ := Option.map_eq_some_iff.1 (Option.mem_toList.1 he)
  exact ⟨by simpa using (List.mem_filter.1 (List.mem_of_mem_head? hr)).2, rfl⟩

/-- One timestamp: the events come kind by kind, in the string order of the kinds. -/
theorem preprocessImpl_eq_kindEvents {t : ℚ} (ht : ∀ r ∈ df, r.timestamp = t) :
    preprocessImpl df =
      kindEvents .add df ++ (kindEvents .set df ++
        (kindEvents .snapshot df ++ kindEvents .sub df)) := by
  have hkeys : Series.sortedKeys (df.map L2Row.groupKey) =
      ([.add, .set, .snapshot, .sub].filter fun u => ofKind u df ≠ []).map
        fun u => toLex (t, u) := by
    refine (Series.pairwise_sortedKeys _).eq_of_mem_iff ?_ fun k => ?_
    · refine List.pairwise_map.2 (List.Pairwise.filter _ (List.Pairwise.imp ?_ (R := (· < ·))
        (by decide)))
      exact fun h => Prod.Lex.toLex_lt_toLex.2 (.inr ⟨rfl, h⟩)
    · have hall : ∀ u : UpdateType, u ∈ [.add, .set, .snapshot, .sub] := fun u => by
        cases u <;> decide
      simp only [Series.mem_sortedKeys, List.mem_map, List.mem_filter, hall, true_and,
        decide_eq_true_eq, ofKind_ne_nil_iff]
      constructor
      · rintro ⟨r, hr, rfl⟩
        exact ⟨r.updateType, ⟨r, hr, rfl⟩, by rw [L2Row.groupKey, ht r hr]⟩
      · rintro ⟨u, ⟨r, hr, rfl⟩, rfl⟩
        exact ⟨r, hr, by rw [L2Row.groupKey, ht r hr]⟩
  have hgroups : (Series.groupBy L2Row.groupKey df).map Prod.snd =
      ([.add, .set, .snapshot, .sub].filter fun u => ofKind u df ≠ []).map fun u => ofKind u df := by
    rw [Series.groupBy, hkeys, List.map_map, List.map_map]
    refine List.map_congr_left fun u _ => List.filter_congr fun r hr => ?_
    simp [L2Row.groupKey, ht r hr]
  have hskip : ∀ us : List UpdateType,
      (us.filter fun u => ofKind u df ≠ []).flatMap (fun u => kindEvents u df) =
        us.flatMap fun u => kindEvents u df := by
    intro us
    induction us with
    | nil => rfl
    | cons u us ih =>
      by_cases hu : ofKind u df = []
      · have hnone : kindEvents u df = [] := by rw [kindEvents, hu]; rfl
        simpa [hu, hnone] using ih
      · simpa [hu] using ih
  rw [preprocessImpl_eq, hgroups, List.filterMap_map, List.filterMap_eq_flatMap_toList]
  simpa [kindEvents] using hskip [.add, .set, .snapshot, .sub]

theorem levelOrders_ofKind :
    levelOrders u ((ofKind u df).map L2Row.order) s p cur =
      (levelSizes u df s p).foldl (fun cur size => u.onLevel size cur) cur := by
  rw [levelOrders_eq_foldl, sizesAt, levelSizes, List.filter_map, List.map_map]
  rfl

/-- A kind other than SNAPSHOT goes on from the level as it is. -/
theorem levelAfter_kindEvents (hu : u ≠ .snapshot) :
    levelAfter (kindEvents u df) s p cur =
      (levelSizes u df s p).foldl (fun cur size => u.onLevel size cur) cur := by
  rw [← levelOrders_ofKind]
  rcases hrows : ofKind u df with _ | ⟨r, rs⟩
  · rw [kindEvents, hrows]; rfl
  · have hr : r.updateType = u := by
      have : r ∈ ofKind u df := hrows ▸ List.mem_cons_self
      simpa using (List.mem_filter.1 this).2
    simp only [kindEvents, hrows, groupEvent, List.head?_cons, Option.map_some, Option.toList_some,
      levelAfter, List.foldl_cons, List.foldl_nil, levelEvent, hr, if_neg hu]

theorem foldl_onLevel_add (sizes : List ℚ) :
    sizes.foldl (fun cur size => UpdateType.add.onLevel size cur) cur =
      if sizes = [] then cur else some (cur.getD 0 + sizes.sum) := by
  induction sizes generalizing cur with
  | nil => rfl
  | cons size sizes ih =>
    rw [List.foldl_cons, ih]
    cases cur <;> rcases sizes with _ | ⟨size', sizes⟩ <;>
      simp [UpdateType.onLevel, add_assoc]

theorem foldl_onLevel_snapshot (sizes : List ℚ) :
    sizes.foldl (fun cur size => UpdateType.snapshot.onLevel size cur) cur =
      if sizes = [] then cur else some (cur.getD 0 + sizes.sum) := by
  rw [← foldl_onLevel_add]
  congr
  funext cur size
  cases cur <;> rfl

theorem foldl_onLevel_set (sizes : List ℚ) :
    sizes.foldl (fun cur size => UpdateType.set.onLevel size cur) cur =
      match sizes.getLast? with
      | some size => if size = 0 then none else some size
      | none => cur := by
  rcases sizes.eq_nil_or_concat with rfl | ⟨sizes, size, rfl⟩
  · rfl
  · simp [UpdateType.onLevel]

theorem foldl_onLevel_sub_none (sizes : List ℚ) :
    sizes.foldl (fun cur size => UpdateType.sub.onLevel size cur) none = none := by
  induction sizes with
  | nil => rfl
  | cons size sizes ih => exact ih

/-- **One timestamp, one level**: unless all its rows are skipped, regrouping leaves the size
`kindOrderSize` says. -/
theorem lookup_replay_preprocessImpl {t : ℚ} (ht : ∀ r ∈ df, r.timestamp = t)
    (happlied : state.inited = true ∨ ∃ r ∈ df, r.updateType = .snapshot) :
    (replay state (preprocessImpl df)).orderBook.lookup s p =
      kindOrderSize df s p (state.orderBook.lookup s p) := by
  rw [preprocessImpl_eq_kindEvents ht, kindOrderSize]
  by_cases hsnapshot : ofKind .snapshot df = []
  · -- no SNAPSHOT row: the book was there before, and every level goes on from its size
    have hnone : kindEvents .snapshot df = [] := by rw [kindEvents, hsnapshot]; rfl
    have hi : state.inited = true :=
      happlied.resolve_right fun h => ofKind_ne_nil_iff.2 h hsnapshot
    rw [hnone, List.nil_append, lookup_replay_of_inited hi]
    simp only [levelAfter_append, levelAfter_kindEvents (u := .add) (by decide),
      levelAfter_kindEvents (u := .set) (by decide), levelAfter_kindEvents (u := .sub) (by decide),
      foldl_onLevel_add, foldl_onLevel_set, hsnapshot, ne_eq, not_true, if_false]
  · -- a SNAPSHOT: what ADD and SET did is gone
    obtain ⟨e, he⟩ : ∃ e, kindEvents .snapshot df = [e] := by
      obtain ⟨r, rs, hrows⟩ := List.exists_cons_of_ne_nil hsnapshot
      exact ⟨_, by rw [kindEvents, hrows]; rfl⟩
    obtain ⟨hkind, horders⟩ := updateType_of_mem_kindEvents (he ▸ List.mem_singleton_self e)
    rw [← List.append_assoc, replay_append, he, List.singleton_append, replay_cons,
      lookup_replay_of_inited (by simp [inited_cryptotickUpdateState, hkind]),
      lookup_cryptotickUpdateState (.inr hkind), levelEvent, if_pos hkind, hkind, horders,
      levelOrders_ofKind, foldl_onLevel_snapshot, levelAfter_kindEvents (by decide)]
    simp [hsnapshot]

/-! ### When regrouping is harmless -/

/-- At every timestamp, and for every level, the rows leave the same size in the frame's order as
kind by kind.  (Before the first SNAPSHOT rows are skipped in any order.) -/
def RegroupHarmless (state : L2State) (df : List L2Row) : Prop :=
  ∀ (t : ℚ) (s : Side) (p : ℚ),
    let before := replay state (rowEvents (df.filter fun r => r.timestamp < t))
    let rows := df.filter fun r => r.timestamp = t
    before.inited = true ∨ (∃ r ∈ rows, r.updateType = .snapshot) →
      (replay before (rowEvents rows)).orderBook.lookup s p =
        kindOrderSize rows s p (before.orderBook.lookup s p)

/-- The rows before a time are the rows up to an earlier one, if there are any. -/
theorem filter_lt_eq_filter_le (df : List L2Row) (t : ℚ) :
    df.filter (fun r => r.timestamp < t) = [] ∨
      ∃ t' < t, (∃ r ∈ df, r.timestamp = t') ∧
        df.filter (fun r => r.timestamp < t) = df.filter fun r => r.timestamp ≤ t' := by
  rcases h : df.filter fun r => r.timestamp < t with _ | ⟨r₀, rs⟩
  · exact .inl h
  · obtain ⟨m, hm, hmax⟩ := (df.filter fun r => r.timestamp < t).toFinset.exists_max_image
      L2Row.timestamp ⟨r₀, by simp [h]⟩
    have hm' : m ∈ df ∧ m.timestamp < t := by simpa using hm
    refine .inr ⟨m.timestamp, hm'.2, ⟨m, hm'.1, rfl⟩, List.filter_congr fun r hr => ?_⟩
    refine decide_eq_decide.2 ⟨fun hlt => hmax r (by simpa using ⟨hr, hlt⟩), fun hle => ?_⟩
    exact hle.trans_lt hm'.2

section Harmless

variable (hsorted : df.Pairwise fun r r' => r.timestamp ≤ r'.timestamp)
include hsorted

/-- One timestamp: if the books agree before it, they agree at its end just when its rows leave
the same sizes in both orders. -/
theorem orderBook_eq_iff {t : ℚ}
    (hbefore : (replay state (preprocessImpl (df.filter fun r => r.timestamp < t))).orderBook =
      (replay state (rowEvents (df.filter fun r => r.timestamp < t))).orderBook) :
    (replay state (preprocessImpl (df.filter fun r => r.timestamp ≤ t))).orderBook =
        (replay state (rowEvents (df.filter fun r => r.timestamp ≤ t))).orderBook ↔
      ∀ (s : Side) (p : ℚ),
        let before := replay state (rowEvents (df.filter fun r => r.timestamp < t))
        let rows := df.filter fun r => r.timestamp = t
        before.inited = true ∨ (∃ r ∈ rows, r.updateType = .snapshot) →
          (replay before (rowEvents rows)).orderBook.lookup s p =
            kindOrderSize rows s p (before.orderBook.lookup s p) := by
  rw [chronological_preprocessImpl.filter_le_eq hsorted, chronological_rowEvents.filter_le_eq hsorted,
    replay_append, replay_append]
  have hinited : (replay state (preprocessImpl (df.filter fun r => r.timestamp < t))).inited = true ↔
      (replay state (rowEvents (df.filter fun r => r.timestamp < t))).inited = true := by
    rw [chronological_preprocessImpl.inited_replay, chronological_rowEvents.inited_replay]
  generalize replay state (preprocessImpl (df.filter fun r => r.timestamp < t)) = events at *
  generalize replay state (rowEvents (df.filter fun r => r.timestamp < t)) = before at *
  have ht : ∀ r ∈ df.filter (fun r => r.timestamp = t), r.timestamp = t := fun r hr =>
    of_decide_eq_true (List.mem_filter.1 hr).2
  generalize df.filter (fun r => r.timestamp = t) = rows at *
  dsimp only
  by_cases happlied : before.inited = true ∨ ∃ r ∈ rows, r.updateType = .snapshot
  · simp only [happlied, forall_const]
    have hevents : ∀ s p, (replay events (preprocessImpl rows)).orderBook.lookup s p =
        kindOrderSize rows s p (before.orderBook.lookup s p) := fun s p => by
      rw [lookup_replay_preprocessImpl ht (happlied.imp_left hinited.2), hbefore]
    constructor
    · intro h s p
      rw [← h, hevents]
    · intro h
      exact OrderBook.ext' fun s p => (hevents s p).trans (h s p).symm
  · have happlied' : ¬ (events.inited = true ∨ ∃ r ∈ rows, r.updateType = .snapshot) :=
      fun h => happlied (h.imp_left hinited.1)
    rw [chronological_preprocessImpl.replay_of_not_inited happlied',
      chronological_rowEvents.replay_of_not_inited happlied]
    simp [happlied, hbefore]

/-- **When regrouping keeps the meaning of a frame**: exactly when at every timestamp the rows of
every level leave the same size kind by kind. -/
theorem preservesMeaning_iff : PreservesMeaning state df ↔ RegroupHarmless state df := by
  have hbooks : PreservesMeaning state df ↔ ∀ t : ℚ,
      (replay state (preprocessImpl (df.filter fun r => r.timestamp ≤ t))).orderBook =
        (replay state (rowEvents (df.filter fun r => r.timestamp ≤ t))).orderBook := by
    simp only [PreservesMeaning, chronological_preprocessImpl.filter_le hsorted,
      chronological_rowEvents.filter_le hsorted]
  rw [hbooks]
  constructor
  · intro h t
    refine (orderBook_eq_iff hsorted ?_).1 (h t)
    rcases filter_lt_eq_filter_le df t with hnil | ⟨t', -, -, heq⟩
    · rw [hnil]; rfl
    · rw [heq]
      exact h t'
  · intro h t
    -- by induction on the rows before the timestamp
    have hbefore : ∀ (n : ℕ) (t : ℚ), (df.filter fun r => r.timestamp < t).length = n →
        (replay state (preprocessImpl (df.filter fun r => r.timestamp < t))).orderBook =
          (replay state (rowEvents (df.filter fun r => r.timestamp < t))).orderBook := by
      intro n
      induction n using Nat.strong_induction_on with
      | _ n ih =>
        rintro t rfl
        rcases filter_lt_eq_filter_le df t with hnil | ⟨t', -, ⟨r, hr, rfl⟩, heq⟩
        · rw [hnil]; rfl
        · rw [heq]
          refine (orderBook_eq_iff hsorted (ih _ ?_ _ rfl)).2 (h _)
          -- the row at the earlier timestamp is not before it
          have hsub : df.filter (fun x => x.timestamp < r.timestamp) =
              (df.filter fun x => x.timestamp ≤ r.timestamp).filter
                fun x => x.timestamp < r.timestamp := by
            rw [List.filter_filter]
            exact List.filter_congr fun x _ => by simpa using fun h => le_of_lt h
          rw [hsub, heq, List.length_filter_lt_length_iff_exists]
          exact ⟨r, List.mem_filter.2 ⟨hr, by simp⟩, by simp⟩
    exact (orderBook_eq_iff hsorted (hbefore _ t rfl)).2 (h t)

end Harmless

/-- A level that is set and then added to, within one timestamp. -/
def setThenAdd : List L2Row :=
  [⟨0, 0, .snapshot, .bid, 100, 10⟩, ⟨1, 1, .set, .bid, 100, 5⟩, ⟨1, 1, .add, .bid, 100, 3⟩]

theorem preservesMeaning_iff_setThenAdd :
    PreservesMeaning {} setThenAdd ↔ RegroupHarmless {} setThenAdd :=
  preservesMeaning_iff (by decide)

/-- The size is 5 instead of 8: the event of the ADD comes before the event of the SET. -/
theorem not_preservesMeaning_setThenAdd :
    setThenAdd.Pairwise (fun r r' => r.timestamp ≤ r'.timestamp) ∧
      ¬ PreservesMeaning {} setThenAdd := by
  refine ⟨by decide, fun h => ?_⟩
  have hlevel := congrArg (fun b => b.lookup .bid 100) (h 1)
  revert hlevel
  decide +kernel

end Svoe
