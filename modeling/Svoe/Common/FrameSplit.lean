import Svoe.Common.Frame

/-!
# What the splitting of a frame yields

`gen_split_df_by_mem` cuts a sorted frame behind at least `chunk_num_rows` rows, and moves each cut
behind the rows of the same timestamp.  With a row count of zero it stays where it is.

* `genSplitDfByMem_partition` : a positive row count gives a partition of the frame.
* `splitEnds_iff` : the loop ends exactly if the row count is positive, or all timestamps are equal.
-/

namespace Svoe

variable {α : Type*} {ts : α → ℚ} {df : List α} {c start fuel : ℕ}

/-! ### One cut -/

/-- The cut is not before the nominal end of the chunk, and the last row before it has the timestamp
of the nominally last row. -/
theorem splitEnd_nominal (ts : α → ℚ) (df : List α) (c start : ℕ) :
    min (start + c) df.length ≤ splitEnd ts df c start ∧
      (0 < splitEnd ts df c start → (iloc df (splitEnd ts df c start - 1 : ℤ)).map ts =
        (iloc df (min (start + c : ℤ) df.length - 1)).map ts) := by
  obtain ⟨i, hi⟩ : ∃ i : ℤ, i = min (start + c : ℤ) df.length - 1 := ⟨_, rfl⟩
  have hstep : i + 1 ≤ moveEnd ts df ((iloc df i).map ts) (df.length + 2) i := by
    rw [moveEnd, if_pos ⟨by omega, rfl⟩]
    exact (moveEnd_spec ts df _ (df.length + 1) (i + 1) (by omega) (by omega)).1
  have hspec := moveEnd_spec ts df ((iloc df i).map ts) (df.length + 2) i (by omega) (by omega)
  have he : (splitEnd ts df c start : ℤ) =
      moveEnd ts df ((iloc df i).map ts) (df.length + 2) i := by
    simp only [splitEnd, ← hi]
    exact Int.toNat_of_nonneg (by omega)
  rw [he, ← hi]
  exact ⟨by omega, fun _ => hspec.2.2.1 (by omega)⟩

/-- With a positive row count the cut is behind the start. -/
theorem lt_splitEnd (ts : α → ℚ) (hc : 1 ≤ c) (hs : start < df.length) :
    start < splitEnd ts df c start := by
  have hnominal := (splitEnd_nominal ts df c start).1
  omega

/-- The rows between the nominal end and the cut have the timestamp of the nominally last row. -/
theorem map_ts_of_lt_splitEnd (h : isTsSorted ts df) (hc : 1 ≤ c) (hs : start < df.length) {j : ℕ}
    (hj : start + c ≤ j) (hlt : j < splitEnd ts df c start) :
    df[j]?.map ts = df[start + c - 1]?.map ts := by
  obtain ⟨-, hle, -⟩ := splitEnd_spec h c hs
  obtain ⟨-, hlast⟩ := splitEnd_nominal ts df c start
  generalize splitEnd ts df c start = e at hlt hle hlast
  have hlast := hlast (by omega)
  rw [show (e : ℤ) - 1 = ((e - 1 : ℕ) : ℤ) by omega, min_eq_left (by omega),
    show (start + c : ℤ) - 1 = ((start + c - 1 : ℕ) : ℤ) by omega, iloc_natCast,
    iloc_natCast] at hlast
  rw [List.getElem?_eq_getElem (by omega : e - 1 < df.length),
    List.getElem?_eq_getElem (by omega : start + c - 1 < df.length)] at hlast
  rw [List.getElem?_eq_getElem (by omega : j < df.length),
    List.getElem?_eq_getElem (by omega : start + c - 1 < df.length)]
  -- the timestamp at `j` is between two equal ones
  have hlow := h.getElem_le_getElem (i := start + c - 1) (j := j) (by omega) (by omega) (by omega)
  have hhigh := h.getElem_le_getElem (i := j) (j := e - 1) (by omega) (by omega) (by omega)
  simp only [Option.map_some, Option.some.injEq] at hlast ⊢
  exact le_antisymm (hlast ▸ hhigh) hlow

/-! ### Partitions -/

/-- Chunks of at least `n` rows but the last, one after the other in time, that are the frame; what
a chunk has beyond `n` rows has the timestamp of its `n`-th row. -/
structure SizePartition (ts : α → ℚ) (df : List α) (n : ℕ) (chunks : List (List α)) : Prop where
  nonempty : ∀ chunk ∈ chunks, chunk ≠ []
  flatten : chunks.flatten = df
  apart : chunks.Pairwise fun chunk chunk' => ∀ r ∈ chunk, ∀ r' ∈ chunk', ts r < ts r'
  full : ∀ chunk ∈ chunks.dropLast, n ≤ chunk.length
  overhang : ∀ chunk ∈ chunks, ∀ j, n ≤ j → j < chunk.length →
    chunk[j]?.map ts = chunk[n - 1]?.map ts

theorem sizePartition_nil (ts : α → ℚ) (n : ℕ) : SizePartition ts [] n [] where
  nonempty := by simp
  flatten := rfl
  apart := .nil
  full := by simp
  overhang := by simp

/-- One more chunk in front. -/
theorem SizePartition.cons {n : ℕ} {chunks : List (List α)} {chunk rest : List α}
    (h : SizePartition ts rest n chunks) (hne : chunk ≠ [])
    (hcut : ∀ r ∈ chunk, ∀ r' ∈ rest, ts r < ts r') (hfull : rest ≠ [] → n ≤ chunk.length)
    (hover : ∀ j, n ≤ j → j < chunk.length → chunk[j]?.map ts = chunk[n - 1]?.map ts) :
    SizePartition ts (chunk ++ rest) n (chunk :: chunks) where
  nonempty := List.forall_mem_cons.2 ⟨hne, h.nonempty⟩
  flatten := by rw [List.flatten_cons, h.flatten]
  apart := by
    refine List.pairwise_cons.2 ⟨fun chunk' hchunk' r hr r' hr' => hcut r hr r' ?_, h.apart⟩
    rw [← h.flatten]
    exact List.mem_flatten.2 ⟨chunk', hchunk', hr'⟩
  full := by
    cases chunks with
    | nil => simp
    | cons next chunks =>
      rw [List.dropLast_cons_cons]
      refine List.forall_mem_cons.2 ⟨hfull ?_, h.full⟩
      rintro rfl
      have hnil := List.flatten_eq_nil_iff.1 h.flatten next List.mem_cons_self
      exact h.nonempty next List.mem_cons_self hnil
  overhang := List.forall_mem_cons.2 ⟨hover, h.overhang⟩

/-- What is behind a point of the frame is a chunk and what is behind its cut. -/
theorem drop_eq_slice_append {m e : ℕ} (hme : m ≤ e) :
    df.drop m = slice df (m, e) ++ df.drop e := by
  rw [slice, List.drop_take]
  conv_lhs => rw [← List.take_append_drop (e - m) (df.drop m), List.drop_drop,
    Nat.add_sub_cancel' hme]

theorem length_slice {m e : ℕ} (he : e ≤ df.length) : (slice df (m, e)).length = e - m := by
  rw [slice, List.length_drop, List.length_take, min_eq_left he]

theorem getElem?_slice {m e j : ℕ} (hj : m + j < e) : (slice df (m, e))[j]? = df[m + j]? := by
  rw [slice, List.getElem?_drop, List.getElem?_take_of_lt hj]

/-- **The chunks from a point on** are a partition of what is behind it, with enough fuel. -/
theorem sizePartition_splitBounds (h : isTsSorted ts df) (hc : 1 ≤ c)
    (hfuel : df.length - start ≤ fuel) :
    SizePartition ts (df.drop start) c ((splitBounds ts df c fuel start).map (slice df)) := by
  induction fuel generalizing start with
  | zero =>
    rw [List.drop_eq_nil_of_le (by omega)]
    exact sizePartition_nil ts c
  | succ fuel ih =>
    rw [splitBounds]
    split_ifs with hs
    · obtain ⟨-, hle, hcut⟩ := splitEnd_spec h c hs
      have hnominal := (splitEnd_nominal ts df c start).1
      have hlt := lt_splitEnd ts hc hs
      have hover := fun j => map_ts_of_lt_splitEnd h hc hs (j := start + j)
      have hlen := length_slice (m := start) hle
      rw [drop_eq_slice_append hlt.le]
      generalize splitEnd ts df c start = e at hle hcut hnominal hlt hover hlen
      refine (ih (by omega)).cons ?_ ?_ ?_ ?_
      · exact List.ne_nil_of_length_pos (by omega)
      · exact fun r hr => hcut (by omega) r (List.mem_of_mem_drop hr)
      · intro hrest
        have hbefore : e < df.length := by
          by_contra hge
          exact hrest (List.drop_eq_nil_of_le (by omega))
        omega
      · intro j hj hjlt
        rw [hlen] at hjlt
        rw [getElem?_slice (by omega), getElem?_slice (by omega), hover j (by omega) (by omega),
          show start + (c - 1) = start + c - 1 by omega]
    · rw [List.drop_eq_nil_of_le (by omega)]
      exact sizePartition_nil ts c

theorem splitBounds_of_length_le (ts : α → ℚ) (c fuel : ℕ) (hs : df.length ≤ start) :
    splitBounds ts df c fuel start = [] := by
  cases fuel with
  | zero => rfl
  | succ fuel => exact if_neg (not_lt.2 hs)

/-- More fuel than rows changes nothing. -/
theorem splitBounds_eq_of_le (ts : α → ℚ) (hc : 1 ≤ c) {fuel' : ℕ}
    (hfuel : df.length - start ≤ fuel) (hfuel' : df.length - start ≤ fuel') :
    splitBounds ts df c fuel start = splitBounds ts df c fuel' start := by
  induction fuel generalizing start fuel' with
  | zero =>
    have hs : df.length ≤ start := by omega
    rw [splitBounds_of_length_le ts c 0 hs, splitBounds_of_length_le ts c fuel' hs]
  | succ fuel ih =>
    rcases lt_or_ge start df.length with hs | hs
    · have hlt := lt_splitEnd ts hc hs
      cases fuel' with
      | zero => omega
      | succ fuel' =>
        rw [splitBounds, splitBounds, if_pos hs, if_pos hs]
        exact congrArg (List.cons _) (ih (by omega) (by omega))
    · rw [splitBounds_of_length_le ts c _ hs, splitBounds_of_length_le ts c _ hs]

variable {dfSizeKb chunkSizeKb : ℕ}

/-- The generator does not raise. -/
theorem genSplitDfByMem_eq (hs : isTsSorted ts df) (hne : df ≠ []) (hpos : 1 ≤ dfSizeKb)
    (hsize : chunkSizeKb ≤ dfSizeKb) (fuel : ℕ) :
    genSplitDfByMem ts df dfSizeKb chunkSizeKb fuel =
      .ok (splitBounds ts df (chunkNumRows df dfSizeKb chunkSizeKb) fuel 0) := by
  have hrows : ¬ (df.length = 0 ∨ dfSizeKb = 0) := by
    rw [List.length_eq_zero_iff]
    rintro (hnil | hzero)
    · exact hne hnil
    · omega
  rw [genSplitDfByMem, if_neg (not_not.2 hs), if_neg (not_lt.2 hsize), if_neg hrows]

/-- **Splitting by size is a partition** of the frame, for every row count of at least one. -/
theorem genSplitDfByMem_partition (hs : isTsSorted ts df) (hne : df ≠ [])
    (hsize : chunkSizeKb ≤ dfSizeKb) (hc : 1 ≤ chunkNumRows df dfSizeKb chunkSizeKb) :
    ∃ bounds, (∀ fuel, df.length ≤ fuel →
        genSplitDfByMem ts df dfSizeKb chunkSizeKb fuel = .ok bounds) ∧
      SizePartition ts df (chunkNumRows df dfSizeKb chunkSizeKb) (bounds.map (slice df)) := by
  have hpos : 1 ≤ dfSizeKb := by
    refine Nat.one_le_iff_ne_zero.2 fun hzero => ?_
    rw [chunkNumRows, hzero, Nat.div_zero] at hc
    cases hc
  have hlen : df.length - 0 ≤ df.length := le_rfl
  refine ⟨_, fun fuel hfuel => ?_, sizePartition_splitBounds hs hc hlen⟩
  rw [genSplitDfByMem_eq hs hne hpos hsize, Except.ok.injEq]
  exact splitBounds_eq_of_le ts hc hfuel le_rfl

/-- Three rows, two of them at one time, in chunks of one row. -/
theorem genSplitDfByMem_partition_tie :
    chunkNumRows [1, 1, 2] 3 1 = 1 ∧
      ∃ bounds, (∀ fuel, 3 ≤ fuel → genSplitDfByMem id [1, 1, 2] 3 1 fuel = .ok bounds) ∧
        SizePartition id [1, 1, 2] 1 (bounds.map (slice [1, 1, 2])) :=
  ⟨by decide, genSplitDfByMem_partition (by decide : isTsSorted id [1, 1, 2]) (by decide)
    (by decide : 1 ≤ 3) (by decide)⟩

/-! ### Progress -/

/-- Every iteration of the loop moves the start. -/
def MakesProgress (ts : α → ℚ) (df : List α) (dfSizeKb chunkSizeKb : ℕ) : Prop :=
  ∀ fuel bounds, genSplitDfByMem ts df dfSizeKb chunkSizeKb fuel = .ok bounds →
    ∀ b ∈ bounds, b.1 < b.2

/-- The loop ends: after some number of iterations there are no others. -/
def SplitEnds (ts : α → ℚ) (df : List α) (dfSizeKb chunkSizeKb : ℕ) : Prop :=
  ∃ n bounds, ∀ fuel, n ≤ fuel → genSplitDfByMem ts df dfSizeKb chunkSizeKb fuel = .ok bounds

/-- The row count is positive if the rows have at most the size of a chunk, on average. -/
theorem one_le_chunkNumRows_iff (hpos : 1 ≤ dfSizeKb) :
    1 ≤ chunkNumRows df dfSizeKb chunkSizeKb ↔ dfSizeKb ≤ chunkSizeKb * df.length := by
  rw [chunkNumRows, Nat.one_le_div_iff hpos]

theorem head_eq_getLast_iff (hs : isTsSorted ts df) (hne : df ≠ []) :
    ts (df.head hne) = ts (df.getLast hne) ↔ ∀ r ∈ df, ∀ r' ∈ df, ts r = ts r' := by
  constructor
  · intro heq
    have hall : ∀ r ∈ df, ts r = ts (df.head hne) := by
      intro r hr
      obtain ⟨i, hi, rfl⟩ := List.getElem_of_mem hr
      refine le_antisymm ?_ ?_
      · rw [heq, List.getLast_eq_getElem]
        exact hs.getElem_le_getElem _ _ (by omega)
      · rw [List.head_eq_getElem_zero]
        exact hs.getElem_le_getElem _ _ (by omega)
    exact fun r hr r' hr' => (hall r hr).trans (hall r' hr').symm
  · exact fun h => h _ (List.head_mem hne) _ (List.getLast_mem hne)

/-- With a row count of zero the first cut is behind all rows if the first row has the timestamp of
the last one, and before all of them else. -/
theorem splitEnd_zero (hs : isTsSorted ts df) (hne : df ≠ []) :
    splitEnd ts df 0 0 = if ts (df.head hne) = ts (df.getLast hne) then df.length else 0 := by
  have hlen : 0 < df.length := List.length_pos_iff.2 hne
  have hi : min ((0 : ℕ) + (0 : ℕ) : ℤ) df.length - 1 = -1 := by omega
  -- the position -1 is that of the last row
  have hlast : iloc df (-1) = some (df.getLast hne) := by
    rw [iloc, if_neg (by omega), if_pos (by omega),
      show ((df.length : ℤ) + -1).toNat = df.length - 1 by omega,
      List.getElem?_eq_getElem (by omega), List.getLast_eq_getElem]
  have hfirst : iloc df 0 = some (df.head hne) := by
    rw [iloc, if_pos le_rfl, Int.toNat_zero, List.getElem?_eq_getElem hlen,
      List.head_eq_getElem_zero]
  rw [splitEnd, hi, hlast, moveEnd, hlast, if_pos ⟨by omega, rfl⟩]
  split_ifs with heq
  · have hspec := moveEnd_spec ts df (some (ts (df.getLast hne))) (df.length + 1) (-1 + 1)
      (by omega) (by omega)
    rw [Option.map_some]
    generalize moveEnd ts df (some (ts (df.getLast hne))) (df.length + 1) (-1 + 1) = e at hspec ⊢
    obtain ⟨hlow, hhigh, -, hnext⟩ := hspec
    obtain ⟨e, rfl⟩ := Int.eq_ofNat_of_zero_le hlow
    rw [Int.toNat_natCast]
    by_contra hlt
    refine hnext (by omega) ?_
    rw [iloc_natCast, List.getElem?_eq_getElem (by omega), Option.map_some, Option.some.injEq]
    exact (head_eq_getLast_iff hs hne).1 heq _ (List.getElem_mem _) _ (List.getLast_mem hne)
  · have hstop : ¬ ((-1 + 1 : ℤ) < df.length ∧
        (iloc df (-1 + 1)).map ts = (some (df.getLast hne)).map ts) := by
      rw [neg_add_cancel, hfirst, Option.map_some, Option.map_some, Option.some.injEq]
      exact fun h => heq h.2
    rw [moveEnd, if_neg hstop]
    rfl

/-- **The loop ends**, moving on in every iteration, exactly if the rows have at most the size of a
chunk on average, or all rows have one timestamp. -/
theorem splitEnds_iff (hs : isTsSorted ts df) (hne : df ≠ []) (hchunk : 1 ≤ chunkSizeKb)
    (hsize : chunkSizeKb ≤ dfSizeKb) :
    MakesProgress ts df dfSizeKb chunkSizeKb ∧ SplitEnds ts df dfSizeKb chunkSizeKb ↔
      dfSizeKb ≤ chunkSizeKb * df.length ∨ ∀ r ∈ df, ∀ r' ∈ df, ts r = ts r' := by
  have hpos : 1 ≤ dfSizeKb := hchunk.trans hsize
  rw [← one_le_chunkNumRows_iff hpos, ← head_eq_getLast_iff hs hne, MakesProgress, SplitEnds]
  simp only [genSplitDfByMem_eq hs hne hpos hsize, Except.ok.injEq, forall_eq']
  rcases Nat.eq_zero_or_pos (chunkNumRows df dfSizeKb chunkSizeKb) with hzero | hc
  · rw [hzero, or_iff_right (by omega)]
    have hlen : 0 < df.length := List.length_pos_iff.2 hne
    have hend := splitEnd_zero hs hne
    constructor
    · rintro ⟨hprogress, -⟩
      have hmove := hprogress 1 (0, splitEnd ts df 0 0) (by simp [splitBounds, hlen])
      by_contra hdiff
      rw [hend, if_neg hdiff] at hmove
      exact lt_irrefl 0 hmove
    · intro heq
      rw [if_pos heq] at hend
      have hone : ∀ fuel, splitBounds ts df 0 (fuel + 1) 0 = [(0, df.length)] := fun fuel => by
        rw [splitBounds, if_pos hlen, hend, splitBounds_of_length_le ts 0 fuel le_rfl]
      refine ⟨fun fuel b hb => ?_, 1, [(0, df.length)], fun fuel hfuel => ?_⟩
      · cases fuel with
        | zero => cases hb
        | succ fuel =>
          rw [hone, List.mem_singleton] at hb
          rw [hb]
          exact hlen
      · obtain ⟨fuel, rfl⟩ := Nat.exists_eq_add_of_le' hfuel
        exact hone fuel
  · refine iff_of_true ⟨fun fuel b hb => ?_, df.length,
      splitBounds ts df (chunkNumRows df dfSizeKb chunkSizeKb) df.length 0,
      fun fuel hfuel => ?_⟩ (.inl hc)
    · obtain ⟨k, hk⟩ := List.getElem?_of_mem hb
      obtain ⟨hstart, hend, -⟩ := splitBounds_getElem? hk
      rw [hend]
      exact lt_splitEnd ts hc hstart
    · exact splitBounds_eq_of_le ts hc hfuel le_rfl

/-- Two rows of one kilobyte each, in chunks of one kilobyte. -/
theorem splitEnds_iff_narrowRows : MakesProgress id [1, 2] 2 1 ∧ SplitEnds id [1, 2] 2 1 :=
  (splitEnds_iff (by decide : isTsSorted id [1, 2]) (by decide) le_rfl (by decide)).2
    (.inl (by decide))

/-- With rows of a kilobyte and a half the loop yields empty chunks for ever. -/
theorem not_splitEnds_wideRows : ¬ (MakesProgress id [1, 2] 3 1 ∧ SplitEnds id [1, 2] 3 1) := by
  rintro ⟨hprogress, -⟩
  have hmove := hprogress 1 [(0, 0)] (by decide +kernel) (0, 0) List.mem_cons_self
  exact lt_irrefl 0 hmove

end Svoe
