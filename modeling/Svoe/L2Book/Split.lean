import Svoe.Common.Frame
import Svoe.L2Book.Preprocess
import Svoe.L2Book.Snapshot

/-!
# Splitting an incremental frame into self-contained chunks

`gen_split_l2_inc_df_and_pad_with_snapshot` cuts a day of L2 rows into chunks and prepends to every
chunk but the first the book at the end of the previous one, as SNAPSHOT rows.  The padding is
meant to be a checkpoint: replaying a chunk alone should give the book that replaying the whole
frame gives.

The checkpoint comes from `_state_snapshot`, which cuts the deeper side of the book to the depth
of the shallower one.  `bookOf_padded_eq_iff` says when a chunk makes up for the levels its
checkpoint lost (`BorderOk`), and `chunksFaithful_iff` that the chunks are faithful exactly when
all of them do.
-/

namespace Svoe

/-! ### The generator -/

/-- The time `prepend_snap` puts between a block and the snapshot of the previous one. -/
def microsec : ℚ := 1 / 1000000

/-- The number of levels cryptotick stores. -/
def cryptotickDepth : ℤ := 5000

/-- `df_to_events(CryptotickL2BookIncrementalData.preprocess(df))`: the frame of no events has no
`timestamp` column. -/
def l2Events (df : List L2Row) : Except PyError (List CryptotickEvent) :=
  if preprocessImpl df = [] then .error (.key "timestamp")
  else if isTsSorted CryptotickEvent.timestamp (preprocessImpl df) then .ok (preprocessImpl df)
  else .error (.value "Unable to parse df with unsorted timestamps")

/-- `run_l2_snapshot_stream`: the snapshot of the book a chunk ends in. -/
def runL2SnapshotStream (df : List L2Row) : Except PyError L2Snapshot :=
  (l2Events df).map fun events => stateSnapshot
    (events.foldl (fun st e => (updateStateCryptotick cryptotickDepth .skipAll st e).1) {})
    cryptotickDepth

/-- The SNAPSHOT rows of one side of a snapshot. -/
def snapRows (ts receiptTs : ℚ) (s : Side) (levels : List (ℚ × ℚ)) : List L2Row :=
  levels.map fun l => ⟨ts, receiptTs, .snapshot, s, l.1, l.2⟩

/-- `prepend_snap`. -/
def prependSnap (df : List L2Row) (snap : L2Snapshot) : Except PyError (List L2Row) :=
  let ts := snap.timestamp + microsec
  let receiptTs := snap.receiptTimestamp + microsec
  match df.head? with
  | none => .error .index
  | some r =>
    if r.timestamp ≤ ts ∨ r.receiptTimestamp ≤ receiptTs then
      .error (.value "Unable to shift snapshot ts when prepending")
    else .ok (snapRows ts receiptTs .bid snap.bids ++ snapRows ts receiptTs .ask snap.asks ++ df)

/-- A split before it is yielded: the first one (no previous snapshot) is left as it is. -/
def padSplit (prevSnap : Option L2Snapshot) (split : List L2Row) : Except PyError (List L2Row) :=
  match prevSnap with
  | none => .ok split
  | some snap => prependSnap split snap

/-- The loop of the generator: the chunks it yields, and the exception that ends it, if any. -/
def padSplits (prevSnap : Option L2Snapshot) :
    List (List L2Row) → List (List L2Row) × Option PyError
  | [] => ([], none)
  | split :: splits =>
    match padSplit prevSnap split with
    | .error e => ([], some e)
    | .ok chunk =>
      match runL2SnapshotStream chunk with
      | .error e => ([], some e)
      | .ok snap => (chunk :: (padSplits (some snap) splits).1, (padSplits (some snap) splits).2)

/-- The bounds of the splits in the frame. -/
def l2SplitBounds (df : List L2Row) (dfSizeKb : ℕ) (splitSizeKb : ℤ) (fuel : ℕ) : List (ℕ × ℕ) :=
  splitBounds L2Row.timestamp df (chunkNumRows df dfSizeKb splitSizeKb.toNat) fuel 0

/-- `gen_split_l2_inc_df_and_pad_with_snapshot`, as far as `fuel` splits go.  A `return` in a
generator yields nothing, so a negative split size gives no chunk. -/
def genSplitL2IncDfAndPadWithSnapshot (df : List L2Row) (dfSizeKb : ℕ) (splitSizeKb : ℤ)
    (fuel : ℕ) : List (List L2Row) × Option PyError :=
  if splitSizeKb < 0 then ([], none)
  else match genSplitDfByMem L2Row.timestamp df dfSizeKb splitSizeKb.toNat fuel with
    | .error e => ([], some e)
    | .ok bounds => padSplits none (bounds.map (slice df))

/-! ### What the chunks are for -/

/-- The book a frame ends in when it is preprocessed and replayed alone. -/
def bookOf (df : List L2Row) : OrderBook := (replay {} (preprocessImpl df)).orderBook

/-- A processed L2 frame: sorted, starting with a SNAPSHOT, with positive sizes, at most 5000
levels per side at any time, and different timestamps more than a microsecond apart. -/
structure ProcessedFrame (df : List L2Row) : Prop where
  sorted : isTsSorted L2Row.timestamp df
  starts : df.head?.map L2Row.updateType = some .snapshot
  sizes : ∀ r ∈ df, 0 < r.size
  depth : ∀ es ∈ (preprocessImpl df).inits, ∀ s, (replay {} es).orderBook.depth s ≤ 5000
  spaced : df.Pairwise fun r r' =>
    r.timestamp = r'.timestamp ∨ r.timestamp + microsec < r'.timestamp

/-- Every yielded chunk, replayed alone, ends in the book that the frame has at the chunk's end. -/
def ChunksFaithful (df : List L2Row) (dfSizeKb : ℕ) (splitSizeKb : ℤ) (fuel : ℕ) : Prop :=
  ∀ (k : ℕ) chunk (b : ℕ × ℕ),
    (genSplitL2IncDfAndPadWithSnapshot df dfSizeKb splitSizeKb fuel).1[k]? = some chunk →
    (l2SplitBounds df dfSizeKb splitSizeKb fuel)[k]? = some b →
    bookOf chunk = bookOf (df.take b.2)

/-- The levels a checkpoint leaves out: those beyond the depth of the shallower side. -/
def cutLevels (b : OrderBook) (s : Side) : List ℚ :=
  (b.prices s).drop (min (b.depth .bid) (b.depth .ask))

/-- The rows from border `m` to border `e` of the frame make up for what the checkpoint at `m`
leaves out: they reset the book; or the checkpoint is not empty, and they leave each cut level as
they would leave it if it had been absent; or the checkpoint is empty, and so is the book at
`e`. -/
def BorderOk (df : List L2Row) (m e : ℕ) : Prop :=
  (∃ r ∈ slice df (m, e), r.updateType = .snapshot) ∨
  (0 < min ((bookOf (df.take m)).depth .bid) ((bookOf (df.take m)).depth .ask) ∧
    ∀ s, ∀ p ∈ cutLevels (bookOf (df.take m)) s,
      levelAfter (preprocessImpl (slice df (m, e))) s p ((bookOf (df.take m)).lookup s p) =
        levelAfter (preprocessImpl (slice df (m, e))) s p none) ∨
  (min ((bookOf (df.take m)).depth .bid) ((bookOf (df.take m)).depth .ask) = 0 ∧
    bookOf (df.take e) = .empty)

/-! ### The checkpoint -/

theorem snapshotDepth_cryptotickDepth {b : OrderBook} (h : ∀ s, b.depth s ≤ 5000) :
    b.snapshotDepth cryptotickDepth = min (b.depth .bid) (b.depth .ask) := by
  have hb := h .bid
  rw [OrderBook.snapshotDepth, if_neg (by decide)]
  unfold cryptotickDepth
  omega

/-- SNAPSHOT orders with distinct prices, on a level of theirs. -/
theorem levelOrders_levels (b : OrderBook) (depth : ℕ) (s t : Side) (p : ℚ) (cur : Option ℚ) :
    levelOrders .snapshot ((b.levels s depth).map fun l => ⟨s, l.1, l.2⟩) t p cur =
      if t = s ∧ p ∈ (b.prices s).take depth then
        UpdateType.onLevel .snapshot ((b.lookup s p).getD 0) cur
      else cur := by
  have hnd : ((b.prices s).take depth).Nodup := (b.nodup_prices s).sublist (List.take_sublist _ _)
  simp only [OrderBook.levels, List.map_map, levelOrders, List.foldl_map, Function.comp_apply]
  generalize (b.prices s).take depth = ps at hnd
  induction ps generalizing cur with
  | nil => simp
  | cons q ps ih =>
    rw [List.foldl_cons, ih _ (List.nodup_cons.1 hnd).2]
    by_cases hs : t = s
    · by_cases hq : p = q
      · subst hq
        simp [hs, (List.nodup_cons.1 hnd).1]
      · simp [hs, hq]
    · simp [hs]

/-- The book of a checkpoint: the levels it kept, and no others. -/
theorem levelOrders_checkpoint (b : OrderBook) (depth : ℕ) (s : Side) (p : ℚ) :
    levelOrders .snapshot ((b.levels .bid depth).map (fun l => (⟨.bid, l.1, l.2⟩ : Order)) ++
      (b.levels .ask depth).map fun l => (⟨.ask, l.1, l.2⟩ : Order)) s p none =
      if p ∈ (b.prices s).take depth then b.lookup s p else none := by
  have happ : ∀ os os' cur, levelOrders .snapshot (os ++ os') s p cur =
      levelOrders .snapshot os' s p (levelOrders .snapshot os s p cur) := by
    simp [levelOrders]
  have hget : p ∈ (b.prices s).take depth → some ((b.lookup s p).getD 0) = b.lookup s p := by
    intro hp
    obtain ⟨v, hv⟩ := Option.isSome_iff_exists.1
      (OrderBook.mem_prices.1 (List.mem_of_mem_take hp))
    simp [hv]
  rw [happ, levelOrders_levels, levelOrders_levels]
  by_cases hp : p ∈ (b.prices s).take depth
  · have := hget hp
    cases s <;> simp_all [UpdateType.onLevel]
  · cases s <;> simp [hp]

/-- Replaying the SNAPSHOT rows of a checkpoint: nothing if it has no rows, else an initialised
state that holds the first `depth` levels of each side. -/
theorem replay_snapRows {b : OrderBook} {depth : ℕ} (h : ∀ s, depth ≤ b.depth s)
    (ts receiptTs : ℚ) :
    let st := replay {} (preprocessImpl (snapRows ts receiptTs .bid (b.levels .bid depth) ++
      snapRows ts receiptTs .ask (b.levels .ask depth)))
    (depth = 0 → st = {}) ∧ (0 < depth → st.inited = true ∧ ∀ s p, st.orderBook.lookup s p =
      if p ∈ (b.prices s).take depth then b.lookup s p else none) := by
  intro st
  refine ⟨fun h0 => ?_, fun hpos => ?_⟩
  · simp [st, snapRows, OrderBook.levels, h0]
  · have hne : b.levels .bid depth ≠ [] := by
      rw [Ne, levels_eq_nil_iff (h .bid)]; omega
    obtain ⟨l, ls, hl⟩ := List.exists_cons_of_ne_nil hne
    have hpre : preprocessImpl (snapRows ts receiptTs .bid (b.levels .bid depth) ++
        snapRows ts receiptTs .ask (b.levels .ask depth)) = [⟨ts, receiptTs, .snapshot,
          (b.levels .bid depth).map (fun l => (⟨.bid, l.1, l.2⟩ : Order)) ++
          (b.levels .ask depth).map fun l => (⟨.ask, l.1, l.2⟩ : Order)⟩] := by
      rw [hl]
      simp only [snapRows, List.map_cons, List.cons_append]
      rw [preprocessImpl_of_forall_eq]
      · simp [L2Row.order, Function.comp_def]
      · simp only [List.mem_append, List.mem_map]
        rintro r (⟨l, -, rfl⟩ | ⟨l, -, rfl⟩) <;> exact ⟨rfl, rfl⟩
    simp only [st, hpre, replay_cons, replay_nil]
    refine ⟨by simp [inited_cryptotickUpdateState], fun s p => ?_⟩
    rw [lookup_cryptotickUpdateState (.inr rfl), levelEvent, if_pos rfl, levelOrders_checkpoint]

/-! ### One border -/

theorem mem_cutLevels_iff {b : OrderBook} {s : Side} {p : ℚ} (h : (b.lookup s p).isSome) :
    p ∈ cutLevels b s ↔ p ∉ (b.prices s).take (min (b.depth .bid) (b.depth .ask)) := by
  have hp := OrderBook.mem_prices.2 h
  have hnd := b.nodup_prices s
  rw [← List.take_append_drop (min (b.depth .bid) (b.depth .ask)) (b.prices s)] at hp hnd
  rw [cutLevels]
  constructor
  · exact fun hd ht => List.disjoint_of_nodup_append hnd ht hd
  · exact fun ht => (List.mem_append.1 hp).resolve_left ht

/-- What a run of events makes of a checkpoint, compared with what it makes of the book. -/
theorem replay_checkpoint_eq_iff {b : OrderBook} {st st' : L2State}
    (hst : st.inited = true) (hb : st.orderBook = b) (hst' : st'.inited = true)
    (hb' : ∀ s p, st'.orderBook.lookup s p =
      if p ∈ (b.prices s).take (min (b.depth .bid) (b.depth .ask)) then b.lookup s p else none)
    (es : List CryptotickEvent) :
    (replay st' es).orderBook = (replay st es).orderBook ↔
      ∀ s, ∀ p ∈ cutLevels b s, levelAfter es s p (b.lookup s p) = levelAfter es s p none := by
  have hl : ∀ s p, (replay st' es).orderBook.lookup s p = levelAfter es s p
      (if p ∈ (b.prices s).take (min (b.depth .bid) (b.depth .ask)) then b.lookup s p
        else none) := fun s p => by
    rw [lookup_replay_of_inited hst', hb']
  constructor
  · intro h s p hp
    have hsome : (b.lookup s p).isSome := OrderBook.mem_prices.1 (List.mem_of_mem_drop hp)
    have heq := congrArg (fun c => c.lookup s p) h
    simp only [hl, lookup_replay_of_inited hst, hb] at heq
    rw [if_neg ((mem_cutLevels_iff hsome).1 hp)] at heq
    exact heq.symm
  · intro h
    refine OrderBook.ext' fun s p => ?_
    rw [hl, lookup_replay_of_inited hst, hb]
    split_ifs with hk
    · rfl
    · cases hv : b.lookup s p with
      | none => rfl
      | some v =>
        have hsome : (b.lookup s p).isSome := by simp [hv]
        rw [← hv, h s p ((mem_cutLevels_iff hsome).2 hk)]

theorem runL2SnapshotStream_ok {df : List L2Row} {snap : L2Snapshot}
    (h : runL2SnapshotStream df = .ok snap) :
    df ≠ [] ∧ snap = stateSnapshot (replay {} (preprocessImpl df)) cryptotickDepth := by
  unfold runL2SnapshotStream l2Events at h
  split_ifs at h with hne hs
  · cases h
  · simp only [Except.map, Except.ok.injEq] at h
    refine ⟨?_, h.symm⟩
    rintro rfl
    exact hne rfl
  · cases h

theorem prependSnap_ok {df chunk : List L2Row} {snap : L2Snapshot}
    (h : prependSnap df snap = .ok chunk) :
    (∃ r, df.head? = some r ∧ snap.timestamp + microsec < r.timestamp) ∧
      chunk = snapRows (snap.timestamp + microsec) (snap.receiptTimestamp + microsec) .bid
        snap.bids ++ snapRows (snap.timestamp + microsec) (snap.receiptTimestamp + microsec) .ask
        snap.asks ++ df := by
  unfold prependSnap at h
  cases hr : df.head? with
  | none => simp [hr] at h
  | some r =>
    simp only [hr] at h
    split_ifs at h with hc
    rw [not_or, not_le] at hc
    exact ⟨⟨r, rfl, hc.1⟩, by simpa using h.symm⟩

/-- The padding of a chunk lies before its own rows. -/
theorem preprocessImpl_padded {df rows chunk : List L2Row} (hs : isTsSorted L2Row.timestamp df)
    {m e : ℕ} {snap : L2Snapshot} (h : prependSnap (slice df (m, e)) snap = .ok chunk)
    (hrows : rows = snapRows (snap.timestamp + microsec) (snap.receiptTimestamp + microsec) .bid
        snap.bids ++ snapRows (snap.timestamp + microsec) (snap.receiptTimestamp + microsec) .ask
        snap.asks) :
    preprocessImpl chunk = preprocessImpl rows ++ preprocessImpl (slice df (m, e)) := by
  obtain ⟨⟨r₀, hr₀, hlt⟩, hchunk⟩ := prependSnap_ok h
  rw [hchunk, ← hrows]
  refine preprocessImpl_append fun r hr r' hr' => ?_
  have hts : r.timestamp = snap.timestamp + microsec := by
    rw [hrows] at hr
    simp only [snapRows, List.mem_append, List.mem_map] at hr
    rcases hr with ⟨l, -, rfl⟩ | ⟨l, -, rfl⟩ <;> rfl
  rw [hts]
  refine hlt.trans_le ?_
  have hslice : isTsSorted L2Row.timestamp (slice df (m, e)) :=
    List.Pairwise.sublist ((List.drop_sublist _ _).trans (List.take_sublist _ _)) hs
  obtain ⟨rs, hrs⟩ : ∃ rs, slice df (m, e) = r₀ :: rs := List.head?_eq_some_iff.1 hr₀
  rw [hrs] at hr' hslice
  rcases List.mem_cons.1 hr' with rfl | hr'
  · rfl
  · exact (List.pairwise_cons.1 hslice).1 r' hr'

section Border

variable {df : List L2Row} {m e : ℕ}

theorem take_eq_append_slice (hme : m ≤ e) : df.take e = df.take m ++ slice df (m, e) := by
  conv_lhs => rw [← List.take_append_drop m (df.take e), List.take_take, min_eq_left hme]
  rfl

theorem preprocessImpl_take (hme : m ≤ e)
    (hcut : ∀ r ∈ df.take m, ∀ r' ∈ df.drop m, r.timestamp < r'.timestamp) :
    preprocessImpl (df.take e) = preprocessImpl (df.take m) ++ preprocessImpl (slice df (m, e)) := by
  rw [take_eq_append_slice hme]
  refine preprocessImpl_append fun r hr r' hr' => hcut r hr r' ?_
  rw [slice, List.drop_take] at hr'
  exact List.mem_of_mem_take hr'

/-- The frame's book is initialised once its first row has been replayed. -/
theorem inited_take (h : ProcessedFrame df) (hm : 0 < m) :
    (replay {} (preprocessImpl (df.take m))).inited = true := by
  obtain ⟨r, hr, hs⟩ := Option.map_eq_some_iff.1 h.starts
  obtain ⟨rs, rfl⟩ := List.head?_eq_some_iff.1 hr
  have hmem : r ∈ (r :: rs).take m := by
    obtain ⟨m, rfl⟩ := Nat.exists_eq_succ_of_ne_zero hm.ne'
    exact List.mem_cons_self
  obtain ⟨e, he, hse⟩ := exists_snapshot_event_iff.2 ⟨r, hmem, hs⟩
  rw [inited_replay]
  simpa using ⟨e, he, hse⟩

/-- At a border the book has at most 5000 levels per side. -/
theorem depth_take_le (h : ProcessedFrame df)
    (hcut : ∀ r ∈ df.take m, ∀ r' ∈ df.drop m, r.timestamp < r'.timestamp) (s : Side) :
    (bookOf (df.take m)).depth s ≤ 5000 := by
  refine h.depth _ (List.mem_inits _ _ |>.2 ⟨preprocessImpl (df.drop m), ?_⟩) s
  rw [← preprocessImpl_append hcut, List.take_append_drop]

/-- **A padded chunk is faithful exactly when it makes up for what its checkpoint lost**,
provided the chunk before it was faithful. -/
theorem bookOf_padded_eq_iff (h : ProcessedFrame df) (hm : 0 < m) (hme : m ≤ e)
    (hcut : ∀ r ∈ df.take m, ∀ r' ∈ df.drop m, r.timestamp < r'.timestamp)
    {prev chunk : List L2Row} {snap : L2Snapshot} (hprev : bookOf prev = bookOf (df.take m))
    (hsnap : runL2SnapshotStream prev = .ok snap)
    (hpad : prependSnap (slice df (m, e)) snap = .ok chunk) :
    bookOf chunk = bookOf (df.take e) ↔ BorderOk df m e := by
  set b := bookOf (df.take m) with hb
  set depth := min (b.depth .bid) (b.depth .ask) with hdepth
  have hdle : ∀ s, depth ≤ b.depth s := fun s => by cases s <;> simp [hdepth]
  -- the checkpoint shows the first `depth` levels of each side
  have hsd : b.snapshotDepth cryptotickDepth = depth :=
    snapshotDepth_cryptotickDepth (depth_take_le h hcut)
  have hlev : ∀ s, (replay {} (preprocessImpl prev)).orderBook.levels s
      ((replay {} (preprocessImpl prev)).orderBook.snapshotDepth cryptotickDepth) =
      b.levels s depth := fun s => by
    rw [show (replay {} (preprocessImpl prev)).orderBook = b from hprev, hsd]
  obtain ⟨-, hsnap⟩ := runL2SnapshotStream_ok hsnap
  have hpre := preprocessImpl_padded h.sorted hpad rfl
  have hbids : snap.bids = b.levels .bid depth := by rw [hsnap, stateSnapshot, hlev .bid]
  have hasks : snap.asks = b.levels .ask depth := by rw [hsnap, stateSnapshot, hlev .ask]
  rw [hbids, hasks] at hpre
  obtain ⟨hzero, hpos⟩ := replay_snapRows hdle (snap.timestamp + microsec)
    (snap.receiptTimestamp + microsec)
  have hchunk : bookOf chunk = (replay (replay {} (preprocessImpl
      (snapRows (snap.timestamp + microsec) (snap.receiptTimestamp + microsec) .bid
        (b.levels .bid depth) ++ snapRows (snap.timestamp + microsec)
          (snap.receiptTimestamp + microsec) .ask (b.levels .ask depth))))
      (preprocessImpl (slice df (m, e)))).orderBook := by
    rw [bookOf, hpre, replay_append]
  have hframe : bookOf (df.take e) = (replay (replay {} (preprocessImpl (df.take m)))
      (preprocessImpl (slice df (m, e)))).orderBook := by
    rw [bookOf, preprocessImpl_take hme hcut, replay_append]
  by_cases hsnapRow : ∃ r ∈ slice df (m, e), r.updateType = .snapshot
  · -- the rows reset the book, whatever it was
    refine iff_of_true ?_ (.inl hsnapRow)
    rw [hchunk, hframe]
    exact replay_orderBook_eq_of_snapshot (exists_snapshot_event_iff.2 hsnapRow) _ _
  · rcases Nat.eq_zero_or_pos depth with h0 | hp
    · -- an empty checkpoint has no rows, so the chunk's own rows are all skipped
      have hskip : ∀ ev ∈ preprocessImpl (slice df (m, e)), ev.updateType ≠ .snapshot :=
        fun ev hev hs => hsnapRow (exists_snapshot_event_iff.1 ⟨ev, hev, hs⟩)
      have hempty : bookOf chunk = .empty := by
        rw [hchunk, hzero h0, replay_of_not_inited rfl hskip]
      rw [hempty, BorderOk, ← hb, ← hdepth, or_iff_right hsnapRow, eq_comm]
      simp [h0]
    · rw [hchunk, hframe, replay_checkpoint_eq_iff (inited_take h hm) hb.symm (hpos hp).1
        (hpos hp).2, BorderOk, ← hb, ← hdepth, or_iff_right hsnapRow]
      simp [hp, hp.ne']

end Border

/-! ### All borders -/

/-- A yielded chunk is its split, padded with the snapshot of the chunk yielded before it. -/
theorem padSplits_getElem? {prevSnap : Option L2Snapshot} {splits : List (List L2Row)} {k : ℕ}
    {chunk : List L2Row} (h : (padSplits prevSnap splits).1[k]? = some chunk) :
    (∃ snap, runL2SnapshotStream chunk = .ok snap) ∧ ∃ split, splits[k]? = some split ∧
      (k = 0 → padSplit prevSnap split = .ok chunk) ∧
      (0 < k → ∃ prev snap, (padSplits prevSnap splits).1[k - 1]? = some prev ∧
        runL2SnapshotStream prev = .ok snap ∧ prependSnap split snap = .ok chunk) := by
  induction splits generalizing prevSnap k with
  | nil => simp [padSplits] at h
  | cons split splits ih =>
    cases hpad : padSplit prevSnap split with
    | error e => simp [padSplits, hpad] at h
    | ok c =>
      cases hrun : runL2SnapshotStream c with
      | error e => simp [padSplits, hpad, hrun] at h
      | ok snap =>
        simp only [padSplits, hpad, hrun] at h ⊢
        cases k with
        | zero =>
          obtain rfl : c = chunk := by simpa using h
          exact ⟨⟨snap, hrun⟩, split, rfl, fun _ => hpad, fun h0 => absurd h0 (lt_irrefl 0)⟩
        | succ k =>
          obtain ⟨hok, sp, hsp, hzero, hsucc⟩ := ih (by simpa using h)
          refine ⟨hok, sp, by simpa using hsp, fun h0 => absurd h0 (Nat.succ_ne_zero k),
            fun _ => ?_⟩
          cases k with
          | zero => exact ⟨c, snap, rfl, hrun, hzero rfl⟩
          | succ k => simpa using hsucc (Nat.succ_pos k)

section Chunks

variable {df : List L2Row} {dfSizeKb fuel : ℕ} {splitSizeKb : ℤ} {k : ℕ} {chunk : List L2Row}
  {b : ℕ × ℕ}

/-- The chunk of the `k`-th bounds, if it is yielded. -/
theorem genSplit_getElem?
    (h : (genSplitL2IncDfAndPadWithSnapshot df dfSizeKb splitSizeKb fuel).1[k]? = some chunk) :
    ∃ b, (l2SplitBounds df dfSizeKb splitSizeKb fuel)[k]? = some b ∧
      (k = 0 → chunk = slice df b) ∧
      (0 < k → ∃ prev snap,
        (genSplitL2IncDfAndPadWithSnapshot df dfSizeKb splitSizeKb fuel).1[k - 1]? = some prev ∧
        runL2SnapshotStream prev = .ok snap ∧ prependSnap (slice df b) snap = .ok chunk) ∧
      0 < b.2 := by
  unfold genSplitL2IncDfAndPadWithSnapshot at h ⊢
  by_cases hneg : splitSizeKb < 0
  · simp [hneg] at h
  rw [if_neg hneg] at h ⊢
  cases hgen : genSplitDfByMem L2Row.timestamp df dfSizeKb splitSizeKb.toNat fuel with
  | error e => simp [hgen] at h
  | ok bounds =>
    have hbounds : l2SplitBounds df dfSizeKb splitSizeKb fuel = bounds := by
      unfold genSplitDfByMem at hgen
      split_ifs at hgen
      exact Except.ok.inj hgen
    simp only [hgen] at h ⊢
    obtain ⟨⟨snap, hsnap⟩, split, hsplit, hzero, hsucc⟩ := padSplits_getElem? h
    rw [List.getElem?_map, Option.map_eq_some_iff] at hsplit
    obtain ⟨b, hb, rfl⟩ := hsplit
    refine ⟨b, hbounds ▸ hb, fun hk => (Except.ok.inj (hzero hk)).symm, hsucc, ?_⟩
    -- an empty split has no first row to pad, and an unpadded one no event to replay
    by_contra hb2
    have hempty : slice df b = [] := by simp [slice, Nat.eq_zero_of_not_pos hb2]
    rcases Nat.eq_zero_or_pos k with hk | hk
    · have hchunk := Except.ok.inj (hzero hk)
      exact (runL2SnapshotStream_ok hsnap).1 (hchunk.symm.trans hempty)
    · obtain ⟨prev, snap', -, -, hpre⟩ := hsucc hk
      rw [hempty] at hpre
      cases hpre

/-- Consecutive bounds meet at a cut between two timestamps. -/
theorem l2SplitBounds_cut (hs : isTsSorted L2Row.timestamp df) {b' : ℕ × ℕ}
    (hb : (l2SplitBounds df dfSizeKb splitSizeKb fuel)[k]? = some b)
    (hb' : (l2SplitBounds df dfSizeKb splitSizeKb fuel)[k + 1]? = some b') :
    b' = (b.2, b'.2) ∧ b.2 ≤ b'.2 ∧
      (0 < b.2 → ∀ r ∈ df.take b.2, ∀ r' ∈ df.drop b.2, r.timestamp < r'.timestamp) := by
  obtain ⟨hlt, hend, -, -⟩ := splitBounds_getElem? hb
  obtain ⟨hlt', hend', -, hprev⟩ := splitBounds_getElem? hb'
  obtain ⟨b'', hb'', hmeet⟩ := hprev (Nat.succ_pos k)
  rw [Nat.add_sub_cancel] at hb''
  obtain rfl : b = b'' := Option.some.inj (hb.symm.trans hb'')
  refine ⟨by rw [hmeet], ?_, ?_⟩
  · rw [hmeet, hend']
    exact (splitEnd_spec hs _ hlt').1
  · rw [hend]
    exact (splitEnd_spec hs _ hlt).2.2

/-- The step of the induction over chunks: if chunk `k` is faithful, then chunk `k + 1` is exactly
when the rows behind the border between them make up for the checkpoint. -/
theorem bookOf_succ_eq_iff (h : ProcessedFrame df) {prev : List L2Row} {b' : ℕ × ℕ}
    (hprev : (genSplitL2IncDfAndPadWithSnapshot df dfSizeKb splitSizeKb fuel).1[k]? = some prev)
    (hchunk : (genSplitL2IncDfAndPadWithSnapshot df dfSizeKb splitSizeKb fuel).1[k + 1]? =
      some chunk)
    (hb : (l2SplitBounds df dfSizeKb splitSizeKb fuel)[k]? = some b)
    (hb' : (l2SplitBounds df dfSizeKb splitSizeKb fuel)[k + 1]? = some b')
    (hfaith : bookOf prev = bookOf (df.take b.2)) :
    bookOf chunk = bookOf (df.take b'.2) ↔ BorderOk df b.2 b'.2 := by
  obtain ⟨c, hc, -, -, hpos⟩ := genSplit_getElem? hprev
  obtain rfl : b = c := Option.some.inj (hb.symm.trans hc)
  obtain ⟨c', hc', -, hpad, -⟩ := genSplit_getElem? hchunk
  obtain rfl : b' = c' := Option.some.inj (hb'.symm.trans hc')
  obtain ⟨prev', snap, hprev', hsnap, hpre⟩ := hpad (Nat.succ_pos k)
  obtain rfl : prev = prev' := Option.some.inj (hprev.symm.trans hprev')
  obtain ⟨hmeet, hle, hcut⟩ := l2SplitBounds_cut h.sorted hb hb'
  rw [hmeet] at hpre
  exact bookOf_padded_eq_iff h hpos hle (hcut hpos) hfaith hsnap hpre

end Chunks

/-- **The chunks are faithful exactly when every chunk makes up for what the checkpoint before it
lost.** -/
theorem chunksFaithful_iff {df : List L2Row} (h : ProcessedFrame df) (dfSizeKb : ℕ)
    (splitSizeKb : ℤ) (fuel : ℕ) :
    ChunksFaithful df dfSizeKb splitSizeKb fuel ↔ ∀ (k : ℕ) (b b' : ℕ × ℕ),
      k + 1 < (genSplitL2IncDfAndPadWithSnapshot df dfSizeKb splitSizeKb fuel).1.length →
      (l2SplitBounds df dfSizeKb splitSizeKb fuel)[k]? = some b →
      (l2SplitBounds df dfSizeKb splitSizeKb fuel)[k + 1]? = some b' →
      BorderOk df b.2 b'.2 := by
  set chunks := (genSplitL2IncDfAndPadWithSnapshot df dfSizeKb splitSizeKb fuel).1 with hchunks
  constructor
  · intro hf k b b' hk hb hb'
    have h0 : chunks[k]? = some chunks[k] := List.getElem?_eq_getElem (by omega)
    have h1 : chunks[k + 1]? = some chunks[k + 1] := List.getElem?_eq_getElem hk
    exact (bookOf_succ_eq_iff h h0 h1 hb hb' (hf k _ b h0 hb)).1 (hf (k + 1) _ b' h1 hb')
  · intro hok k
    induction k with
    | zero =>
      intro chunk b hc hb
      obtain ⟨c, hc', hzero, -, -⟩ := genSplit_getElem? hc
      obtain rfl : b = c := Option.some.inj (hb.symm.trans hc')
      rw [hzero rfl, slice, (splitBounds_getElem? hb).2.2.1 rfl, List.drop_zero]
    | succ k ih =>
      intro chunk b' hc hb'
      obtain ⟨hk, -⟩ := List.getElem?_eq_some_iff.1 hc
      obtain ⟨c, hc', -, hpad, -⟩ := genSplit_getElem? hc
      obtain ⟨prev, -, hprev, -, -⟩ := hpad (Nat.succ_pos k)
      obtain ⟨b, hb, -, -, -⟩ := genSplit_getElem? hprev
      exact (bookOf_succ_eq_iff h hprev hc hb hb' (ih prev b hprev hb)).2 (hok k b b' hk hb hb')

/-! ### A faithful split and an unfaithful one -/

/-- A book with two levels a side, then a new level on each side. -/
def balancedFrame : List L2Row :=
  [⟨1, 1, .snapshot, .bid, 100, 1⟩, ⟨1, 1, .snapshot, .bid, 99, 1⟩,
    ⟨1, 1, .snapshot, .ask, 101, 1⟩, ⟨1, 1, .snapshot, .ask, 102, 1⟩,
    ⟨2, 2, .add, .bid, 98, 1⟩, ⟨2, 2, .add, .ask, 103, 1⟩]

/-- A book with four bids and three asks, then seven new asks. -/
def asymmetricFrame : List L2Row :=
  [⟨1, 1, .snapshot, .bid, 100, 1⟩, ⟨1, 1, .snapshot, .bid, 99, 1⟩,
    ⟨1, 1, .snapshot, .bid, 98, 1⟩, ⟨1, 1, .snapshot, .bid, 97, 1⟩,
    ⟨1, 1, .snapshot, .ask, 101, 1⟩, ⟨1, 1, .snapshot, .ask, 102, 1⟩,
    ⟨1, 1, .snapshot, .ask, 103, 1⟩,
    ⟨2, 2, .add, .ask, 104, 1⟩, ⟨2, 2, .add, .ask, 105, 1⟩, ⟨2, 2, .add, .ask, 106, 1⟩,
    ⟨2, 2, .add, .ask, 107, 1⟩, ⟨2, 2, .add, .ask, 108, 1⟩, ⟨2, 2, .add, .ask, 109, 1⟩,
    ⟨2, 2, .add, .ask, 110, 1⟩]

theorem processedFrame_balancedFrame : ProcessedFrame balancedFrame :=
  ⟨by decide +kernel, by decide +kernel, by decide +kernel, by decide +kernel, by decide +kernel⟩

theorem processedFrame_asymmetricFrame : ProcessedFrame asymmetricFrame :=
  ⟨by decide +kernel, by decide +kernel, by decide +kernel, by decide +kernel, by decide +kernel⟩

theorem chunksFaithful_balancedFrame :
    (genSplitL2IncDfAndPadWithSnapshot balancedFrame 3 2 2).1.length = 2 ∧
      ChunksFaithful balancedFrame 3 2 2 := by
  have hlen : (genSplitL2IncDfAndPadWithSnapshot balancedFrame 3 2 2).1.length = 2 := by
    decide +kernel
  refine ⟨hlen, (chunksFaithful_iff processedFrame_balancedFrame 3 2 2).2
    fun k b b' hk hb hb' => .inr (.inl ?_)⟩
  obtain rfl : k = 0 := by omega
  obtain rfl : (0, 4) = b := Option.some.inj (Eq.trans (by decide +kernel) hb)
  obtain rfl : (4, 6) = b' := Option.some.inj (Eq.trans (by decide +kernel) hb')
  exact ⟨by decide +kernel, by decide +kernel⟩

/-- The fourth bid of `asymmetricFrame` is missing from its second chunk. -/
theorem not_chunksFaithful_asymmetricFrame :
    ProcessedFrame asymmetricFrame ∧ ¬ ChunksFaithful asymmetricFrame 2 1 2 := by
  refine ⟨processedFrame_asymmetricFrame, fun h => ?_⟩
  have hchunk : (genSplitL2IncDfAndPadWithSnapshot asymmetricFrame 2 1 2).1[1]? = some
      (snapRows (1 + microsec) (1 + microsec) .bid [(100, 1), (99, 1), (98, 1)] ++
        snapRows (1 + microsec) (1 + microsec) .ask [(101, 1), (102, 1), (103, 1)] ++
        slice asymmetricFrame (7, 14)) := by decide +kernel
  have hbook := h 1 _ (7, 14) hchunk (by decide +kernel)
  have hlost := congrArg (fun b => b.lookup .bid 97) hbook
  revert hlost
  decide +kernel

end Svoe
