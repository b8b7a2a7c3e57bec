import Svoe.Common.FrameSplit
import Svoe.L2Book.Split

/-!
# Splitting keeps the rows of the frame

Without the rows that `prepend_snap` adds, the chunks of
`gen_split_l2_inc_df_and_pad_with_snapshot` are the frame.  The padding of a chunk lies between the
last row of the chunk before and its own first row.  With a negative split size the generator
returns before it yields anything.

* `le_timestamp_of_snapshot` : a checkpoint with levels is not before a row of its chunk.
* `keepsRows_of_padSplits` : the loop over the splits.
* `keepsRows_iff` : the rows are kept exactly if the split size is not negative.
-/

namespace Svoe

/-! ### The rows without the padding -/

/-- The number of rows that `prepend_snap` adds for a snapshot. -/
def addedRows (snap : L2Snapshot) : ℕ := snap.bids.length + snap.asks.length

/-- The number of rows that are added to the chunk behind a chunk. -/
def addedBehind (chunk : List L2Row) : ℕ :=
  match runL2SnapshotStream chunk with
  | .ok snap => addedRows snap
  | .error _ => 0

/-- The chunks without the rows that `prepend_snap` added; the first one has `added` of them. -/
def dropAdded (added : ℕ) : List (List L2Row) → List (List L2Row)
  | [] => []
  | chunk :: chunks => chunk.drop added :: dropAdded (addedBehind chunk) chunks

/-- Without the added rows the chunks are the frame, and one chunk ends before the next begins. -/
structure KeepsRows (df : List L2Row) (chunks : List (List L2Row)) : Prop where
  rows : (dropAdded 0 chunks).flatten = df
  apart : chunks.Pairwise fun chunk chunk' =>
    ∀ r ∈ chunk, ∀ r' ∈ chunk', r.timestamp < r'.timestamp

/-! ### The time of a checkpoint -/

theorem timestamp_cryptotickUpdateState {state : L2State} {e : CryptotickEvent}
    (h : state.inited = true ∨ e.updateType = .snapshot) :
    (cryptotickUpdateState state e).1.timestamp = e.timestamp := by
  have hc : ¬ (e.updateType ≠ .snapshot ∧ state.inited = false) := by
    rcases h with h | h <;> simp [h]
  rw [cryptotickUpdateState, if_neg hc]

/-- An initialised state is not before any of its events. -/
theorem le_timestamp_replay {state : L2State} {es : List CryptotickEvent}
    (hs : isTsSorted CryptotickEvent.timestamp es) (hi : (replay state es).inited = true) :
    ∀ e ∈ es, e.timestamp ≤ (replay state es).timestamp := by
  induction es using List.reverseRecOn with
  | nil => simp
  | append_singleton es e _ =>
    have hlast : (replay state (es ++ [e])).timestamp = e.timestamp := by
      rw [replay_append, replay_cons, replay_nil] at hi ⊢
      rw [inited_cryptotickUpdateState, Bool.or_eq_true, decide_eq_true_eq] at hi
      exact timestamp_cryptotickUpdateState hi
    rw [hlast]
    intro e' he'
    rcases List.mem_append.1 he' with he' | he'
    · exact (List.pairwise_append.1 hs).2.2 e' he' e (by simp)
    · rw [List.mem_singleton.1 he']

variable {df chunk : List L2Row} {snap : L2Snapshot}

theorem isTsSorted_of_runL2SnapshotStream (h : runL2SnapshotStream df = .ok snap) :
    isTsSorted CryptotickEvent.timestamp (preprocessImpl df) := by
  unfold runL2SnapshotStream l2Events at h
  split_ifs at h with hne hs
  · cases h
  · exact hs
  · cases h

/-- **A checkpoint with levels** is not before a row of its chunk. -/
theorem le_timestamp_of_snapshot (h : runL2SnapshotStream df = .ok snap)
    (hlevels : snap.bids ≠ [] ∨ snap.asks ≠ []) : ∀ r ∈ df, r.timestamp ≤ snap.timestamp := by
  obtain ⟨-, hsnap⟩ := runL2SnapshotStream_ok h
  have hinited : (replay {} (preprocessImpl df)).inited = true := by
    by_contra hi
    rw [Bool.not_eq_true, inited_replay, Bool.false_or, List.any_eq_false] at hi
    have hstate : replay {} (preprocessImpl df) = {} :=
      replay_of_not_inited rfl fun e he => by simpa using hi e he
    rw [hsnap, hstate] at hlevels
    revert hlevels
    decide +kernel
  intro r hr
  obtain ⟨e, he, hts, -⟩ := exists_event_of_mem hr
  rw [← hts, hsnap]
  exact le_timestamp_replay (isTsSorted_of_runL2SnapshotStream h) hinited e he

/-! ### The loop over the splits -/

/-- A padded split is its padding and the split: the padding has one time, after the checkpoint's
and before the split, and it is empty if the checkpoint has no levels. -/
theorem exists_padding (hs : isTsSorted L2Row.timestamp df) (h : prependSnap df snap = .ok chunk) :
    ∃ padding, chunk = padding ++ df ∧ padding.length = addedRows snap ∧ df ≠ [] ∧
      ∀ r ∈ padding, snap.timestamp < r.timestamp ∧ (snap.bids ≠ [] ∨ snap.asks ≠ []) ∧
        ∀ r' ∈ df, r.timestamp < r'.timestamp := by
  obtain ⟨⟨first, hfirst, hlt⟩, hchunk⟩ := prependSnap_ok h
  obtain ⟨rest, rfl⟩ := List.head?_eq_some_iff.1 hfirst
  refine ⟨_, hchunk, by simp [snapRows, addedRows], List.cons_ne_nil _ _, fun r hr => ?_⟩
  have hts : r.timestamp = snap.timestamp + microsec := by
    simp only [snapRows, List.mem_append, List.mem_map] at hr
    rcases hr with ⟨l, -, rfl⟩ | ⟨l, -, rfl⟩ <;> rfl
  have hmicro : 0 < microsec := by norm_num [microsec]
  refine ⟨by linarith, ?_, fun r' hr' => ?_⟩
  · rcases List.mem_append.1 hr with hr | hr
    · exact .inl (List.ne_nil_of_length_pos (by simpa [snapRows] using List.length_pos_of_mem hr))
    · exact .inr (List.ne_nil_of_length_pos (by simpa [snapRows] using List.length_pos_of_mem hr))
  · rw [hts]
    refine hlt.trans_le ?_
    rcases List.mem_cons.1 hr' with rfl | hr'
    · exact le_rfl
    · exact (List.pairwise_cons.1 hs).1 r' hr'

/-- One round of the loop that does not raise. -/
theorem padSplits_cons_eq_none {prevSnap : Option L2Snapshot} {split : List L2Row}
    {splits : List (List L2Row)} (h : (padSplits prevSnap (split :: splits)).2 = none) :
    ∃ chunk snap, padSplit prevSnap split = .ok chunk ∧ runL2SnapshotStream chunk = .ok snap ∧
      (padSplits (some snap) splits).2 = none ∧
      (padSplits prevSnap (split :: splits)).1 = chunk :: (padSplits (some snap) splits).1 := by
  rw [padSplits] at h ⊢
  cases hpad : padSplit prevSnap split with
  | error e => simp [hpad] at h
  | ok chunk =>
    cases hrun : runL2SnapshotStream chunk with
    | error e => simp [hpad, hrun] at h
    | ok snap =>
      simp only [hpad, hrun] at h
      exact ⟨chunk, snap, rfl, hrun, h, by simp only [hrun]⟩

/-- Without the added rows the padded splits are the splits. -/
theorem dropAdded_padSplits {prevSnap : Option L2Snapshot} {splits : List (List L2Row)}
    (hs : ∀ split ∈ splits, isTsSorted L2Row.timestamp split)
    (h : (padSplits prevSnap splits).2 = none) :
    dropAdded ((prevSnap.map addedRows).getD 0) (padSplits prevSnap splits).1 = splits := by
  induction splits generalizing prevSnap with
  | nil => rfl
  | cons split splits ih =>
    obtain ⟨hsplit, hsplits⟩ := List.forall_mem_cons.1 hs
    obtain ⟨chunk, snap, hpad, hrun, hrest, heq⟩ := padSplits_cons_eq_none h
    have hbehind : addedBehind chunk = addedRows snap := by rw [addedBehind, hrun]
    rw [heq, dropAdded, hbehind]
    refine congrArg₂ List.cons ?_ (ih hsplits hrest)
    cases prevSnap with
    | none =>
      obtain rfl := Except.ok.inj hpad
      rfl
    | some prev =>
      obtain ⟨padding, rfl, hlen, -⟩ := exists_padding hsplit hpad
      rw [Option.map_some, Option.getD_some, ← hlen, List.drop_left]

/-- **Behind a chunk** all rows are later, the padding included. -/
theorem pairwise_padSplits {splits : List (List L2Row)}
    (hrun : runL2SnapshotStream chunk = .ok snap)
    (hs : ∀ split ∈ splits, isTsSorted L2Row.timestamp split)
    (hchunk : ∀ split ∈ splits, ∀ r ∈ chunk, ∀ r' ∈ split, r.timestamp < r'.timestamp)
    (hsplits : splits.Pairwise fun split split' =>
      ∀ r ∈ split, ∀ r' ∈ split', r.timestamp < r'.timestamp)
    (h : (padSplits (some snap) splits).2 = none) :
    (chunk :: (padSplits (some snap) splits).1).Pairwise fun chunk chunk' =>
      ∀ r ∈ chunk, ∀ r' ∈ chunk', r.timestamp < r'.timestamp := by
  induction splits generalizing chunk snap with
  | nil => exact List.pairwise_singleton _ _
  | cons split splits ih =>
    obtain ⟨hsplit, hsorted⟩ := List.forall_mem_cons.1 hs
    obtain ⟨hown, hlater⟩ := List.forall_mem_cons.1 hchunk
    obtain ⟨hbehind, hrest⟩ := List.pairwise_cons.1 hsplits
    obtain ⟨next, nextSnap, hpad, hnext, hok, heq⟩ := padSplits_cons_eq_none h
    obtain ⟨padding, rfl, -, hne, hpadding⟩ := exists_padding hsplit hpad
    obtain ⟨x, hx⟩ := List.exists_mem_of_ne_nil split hne
    -- the rows of the next chunk are before the splits behind it
    have hnextRows : ∀ later ∈ splits, ∀ r ∈ padding ++ split, ∀ r' ∈ later,
        r.timestamp < r'.timestamp := by
      intro later hmem r hr r' hr'
      rcases List.mem_append.1 hr with hr | hr
      · exact ((hpadding r hr).2.2 x hx).trans (hbehind later hmem x hx r' hr')
      · exact hbehind later hmem r hr r' hr'
    have hfirst : ∀ r ∈ chunk, ∀ r' ∈ padding ++ split, r.timestamp < r'.timestamp := by
      intro r hr r' hr'
      rcases List.mem_append.1 hr' with hr' | hr'
      · obtain ⟨hlt, hlevels, -⟩ := hpadding r' hr'
        exact (le_timestamp_of_snapshot hrun hlevels r hr).trans_lt hlt
      · exact hown r hr r' hr'
    have hpairwise := ih hnext hsorted hnextRows hrest hok
    rw [heq]
    refine List.pairwise_cons.2 ⟨List.forall_mem_cons.2 ⟨hfirst, fun later hmem r hr r' hr' => ?_⟩,
      hpairwise⟩
    have hx' : x ∈ padding ++ split := List.mem_append_right _ hx
    exact (hfirst r hr x hx').trans ((List.pairwise_cons.1 hpairwise).1 later hmem x hx' r' hr')

/-- **The loop over the splits** keeps their rows. -/
theorem keepsRows_of_padSplits {splits : List (List L2Row)}
    (hs : ∀ split ∈ splits, isTsSorted L2Row.timestamp split)
    (hsplits : splits.Pairwise fun split split' =>
      ∀ r ∈ split, ∀ r' ∈ split', r.timestamp < r'.timestamp)
    (h : (padSplits none splits).2 = none) :
    KeepsRows splits.flatten (padSplits none splits).1 where
  rows := congrArg List.flatten (dropAdded_padSplits hs h)
  apart := by
    cases splits with
    | nil => exact .nil
    | cons split splits =>
      obtain ⟨-, hsorted⟩ := List.forall_mem_cons.1 hs
      obtain ⟨hbehind, hrest⟩ := List.pairwise_cons.1 hsplits
      obtain ⟨chunk, snap, hpad, hrun, hok, heq⟩ := padSplits_cons_eq_none h
      obtain rfl := Except.ok.inj hpad
      rw [heq]
      exact pairwise_padSplits hrun hsorted hbehind hrest hok

/-! ### The generator -/

variable {dfSizeKb c fuel : ℕ} {splitSizeKb : ℤ}

/-- With a row count of zero, a first split that is not empty is the frame. -/
theorem splitBounds_zero (hs : isTsSorted L2Row.timestamp df) (hne : df ≠ []) (hfuel : 1 ≤ fuel)
    (hfirst : ∀ b ∈ splitBounds L2Row.timestamp df 0 fuel 0, slice df b ≠ []) :
    splitBounds L2Row.timestamp df 0 fuel 0 = [(0, df.length)] := by
  obtain ⟨fuel, rfl⟩ := Nat.exists_eq_add_of_le' hfuel
  have hend := splitEnd_zero hs hne
  rw [splitBounds, if_pos (List.length_pos_iff.2 hne)] at hfirst ⊢
  have hsplit := hfirst _ List.mem_cons_self
  split_ifs at hend with heq
  · rw [hend, splitBounds_of_length_le _ _ _ le_rfl]
  · rw [hend] at hsplit
    exact absurd rfl hsplit

/-- The splits of the frame, if none of them is empty. -/
theorem flatten_splitBounds (hs : isTsSorted L2Row.timestamp df) (hne : df ≠ [])
    (hfuel : df.length ≤ fuel)
    (hsplits : ∀ b ∈ splitBounds L2Row.timestamp df c fuel 0, slice df b ≠ []) :
    ((splitBounds L2Row.timestamp df c fuel 0).map (slice df)).flatten = df ∧
      ((splitBounds L2Row.timestamp df c fuel 0).map (slice df)).Pairwise fun split split' =>
        ∀ r ∈ split, ∀ r' ∈ split', r.timestamp < r'.timestamp := by
  rcases Nat.eq_zero_or_pos c with rfl | hc
  · have hlen := List.length_pos_iff.2 hne
    rw [splitBounds_zero hs hne (by omega) hsplits]
    exact ⟨by simp [slice], List.pairwise_singleton _ _⟩
  · have hfuel0 : df.length - 0 ≤ fuel := hfuel
    have hpartition := sizePartition_splitBounds hs hc hfuel0
    exact ⟨hpartition.flatten, hpartition.apart⟩

/-- No split of a loop that does not raise is empty. -/
theorem ne_nil_of_padSplits {prevSnap : Option L2Snapshot} {splits : List (List L2Row)}
    (h : (padSplits prevSnap splits).2 = none) : ∀ split ∈ splits, split ≠ [] := by
  induction splits generalizing prevSnap with
  | nil => simp
  | cons split splits ih =>
    obtain ⟨chunk, snap, hpad, hrun, hok, -⟩ := padSplits_cons_eq_none h
    refine List.forall_mem_cons.2 ⟨?_, ih hok⟩
    rintro rfl
    cases prevSnap with
    | none =>
      obtain rfl := Except.ok.inj hpad
      exact (runL2SnapshotStream_ok hrun).1 rfl
    | some prev => cases hpad

/-- **Splitting keeps the rows** of a frame, if it does not raise, exactly if the split size is not
negative (or there are no rows). -/
theorem keepsRows_iff (hfuel : df.length ≤ fuel)
    (hok : (genSplitL2IncDfAndPadWithSnapshot df dfSizeKb splitSizeKb fuel).2 = none) :
    KeepsRows df (genSplitL2IncDfAndPadWithSnapshot df dfSizeKb splitSizeKb fuel).1 ↔
      0 ≤ splitSizeKb ∨ df = [] := by
  rw [genSplitL2IncDfAndPadWithSnapshot] at hok ⊢
  split_ifs at hok ⊢ with hneg
  · rw [or_iff_right (not_le.2 hneg)]
    constructor
    · exact fun h => h.rows.symm
    · rintro rfl
      exact ⟨rfl, .nil⟩
  · refine iff_of_true ?_ (.inl (not_lt.1 hneg))
    cases hgen : genSplitDfByMem L2Row.timestamp df dfSizeKb splitSizeKb.toNat fuel with
    | error e => simp [hgen] at hok
    | ok bounds =>
      simp only [hgen] at hok ⊢
      rw [genSplitDfByMem] at hgen
      split_ifs at hgen with hs hsize hrows
      obtain rfl := Except.ok.inj hgen
      rw [not_or, List.length_eq_zero_iff] at hrows
      have hsplits := ne_nil_of_padSplits hok
      rw [List.forall_mem_map] at hsplits
      obtain ⟨hflatten, happart⟩ := flatten_splitBounds hs hrows.1 hfuel hsplits
      have hsorted : ∀ split ∈ (splitBounds L2Row.timestamp df
          (chunkNumRows df dfSizeKb splitSizeKb.toNat) fuel 0).map (slice df),
          isTsSorted L2Row.timestamp split := by
        rw [List.forall_mem_map]
        exact fun b _ => hs.sublist
          ((List.drop_sublist _ _).trans (List.take_sublist _ _))
      have hkeeps := keepsRows_of_padSplits hsorted happart hok
      rwa [hflatten] at hkeeps

/-- A frame in two chunks, the second one behind a checkpoint. -/
theorem keepsRows_balancedFrame :
    (genSplitL2IncDfAndPadWithSnapshot balancedFrame 3 2 6).1.length = 2 ∧
      KeepsRows balancedFrame (genSplitL2IncDfAndPadWithSnapshot balancedFrame 3 2 6).1 :=
  ⟨by decide +kernel, (keepsRows_iff (by decide) (by decide +kernel)).2 (.inl (by decide))⟩

/-- A frame that is not to be split is lost. -/
theorem not_keepsRows_negativeSize :
    (genSplitL2IncDfAndPadWithSnapshot balancedFrame 3 (-1) 6).2 = none ∧
      ¬ KeepsRows balancedFrame (genSplitL2IncDfAndPadWithSnapshot balancedFrame 3 (-1) 6).1 := by
  refine ⟨rfl, fun h => ?_⟩
  have hrows : [] = balancedFrame := h.rows
  cases hrows

end Svoe
