import Svoe.Blocks.Overlaps
import Svoe.Series.Accumulate

/-!
# Computing a feature block by block

A feature is calculated for every interval of its grouping: the blocks of the group are merged
into one event list, the events run through the feature's stream, and the outputs inside the
interval are kept.

For a stream that looks back a window (`lookbackApply`) and the grouping `windowedGrouping`, the
outputs of each block are those of the stream over the whole sequence
(`computeBlocks_windowedGrouping`): the group reaches as far back as any event of the block does.
-/

namespace Svoe

open Portion Series

variable {F α β : Type*}

/-! ### Merging blocks -/

/-- `df_to_events`. -/
def dfToEvents (df : List (Event α)) : Except PyError (List (Event α)) :=
  if isTsSorted Event.timestamp df then .ok df
  else .error (.value "Unable to parse df with unsorted timestamps")

/-- `heapq.merge(l, l', key=timestamp)`. -/
def mergeNamed (l l' : List (F × Event α)) : List (F × Event α) :=
  l.merge l' fun x y => x.2.timestamp ≤ y.2.timestamp

/-- The events of one feature's blocks. -/
def mergeBlockRange (f : F) (blocks : List (List (Event α))) :
    Except PyError (List (F × Event α)) :=
  blocks.foldlM (fun named block => (dfToEvents block).map fun events =>
    mergeNamed named (events.map fun e => (f, e))) []

/-- `merge_blocks`.  Without any feature there is no list to iterate over. -/
def mergeBlocks (blocks : List (F × List (List (Event α)))) :
    Except PyError (List (F × Event α)) :=
  match blocks with
  | [] => .error .type
  | p :: rest => do
    let merged ← mergeBlockRange p.1 p.2
    rest.foldlM (fun merged p => (mergeBlockRange p.1 p.2).map (mergeNamed merged)) merged

/-! ### Running a stream -/

/-- `run_named_events_stream`; `out` is what the out stream emits for the named events. -/
def runNamedEventsStream (out : List (F × Event α) → List (Event β))
    (named : List (F × Event α)) (interval : Option (ClosedInterval ℚ)) : List (Event β) :=
  match interval with
  | none => out named
  | some I => (out named).filter fun e => I.lower ≤ e.timestamp ∧ e.timestamp ≤ I.upper

/-- The calculation of a block: merge the group, run the stream, keep what is in the interval. -/
def calculateBlock (load : String → List (Event α)) (out : List (F × Event α) → List (Event β))
    (I : ClosedInterval ℚ) (overlap : List (F × List BlockMeta)) :
    Except PyError (List (Event β)) :=
  (mergeBlocks (overlap.map fun p => (p.1, p.2.map fun m => load m.path))).map fun merged =>
    runNamedEventsStream out merged (some I)

/-- The blocks of a feature with one dependency, for the dependency's grouped blocks. -/
def computeBlocks [DecidableEq F] (dep : F) (load : String → List (Event α))
    (out : List (F × Event α) → List (Event β))
    (grouping : IntervalDict (Cut ℚ) (List BlockMeta)) : Except PyError (List (List (Event β))) :=
  match getOverlaps [(dep, grouping)] with
  | .error e => .error e
  | .ok overlaps => overlaps.mapM fun p => calculateBlock load out p.1 p.2

/-- `_deque_and_apply` of `lookback_apply`. -/
def dequeAndApply (window : Window) (apply : List (Event α) → Event β) (deque : List (Event α))
    (event : Event α) : List (Event α) × Event β :=
  let deque := (deque ++ [event]).dropWhile fun e =>
    convertStrToSeconds window < event.timestamp - e.timestamp
  (deque, apply deque)

/-- `lookback_apply`, for the events of one upstream. -/
def lookbackApply (window : Window) (apply : List (Event α) → Event β)
    (named : List (F × Event α)) : List (Event β) :=
  (accumulate (dequeAndApply window apply) [] (named.map Prod.snd)).2

/-! ### Catalogued blocks -/

/-- Non-empty sorted blocks that share no timestamp, with their first and last timestamps as
metadata. -/
structure Catalogued (metas : List BlockMeta) (load : String → List (Event α)) : Prop where
  sorted : ∀ m ∈ metas, isTsSorted Event.timestamp (load m.path)
  start : ∀ m ∈ metas, (load m.path).head?.map Event.timestamp = some m.startTs
  stop : ∀ m ∈ metas, (load m.path).getLast?.map Event.timestamp = some m.endTs
  apart : metas.Pairwise fun m m' => m.endTs < m'.startTs

namespace Catalogued

variable {metas l : List BlockMeta} {load : String → List (Event α)} {m : BlockMeta}

theorem of_sublist (h : Catalogued metas load) (hl : l.Sublist metas) : Catalogued l load where
  sorted m hm := h.sorted m (hl.subset hm)
  start m hm := h.start m (hl.subset hm)
  stop m hm := h.stop m (hl.subset hm)
  apart := h.apart.sublist hl

theorem exists_start (h : Catalogued metas load) (hm : m ∈ metas) :
    ∃ e es, load m.path = e :: es ∧ e.timestamp = m.startTs := by
  obtain ⟨e, he, hts⟩ := Option.map_eq_some_iff.1 (h.start m hm)
  obtain ⟨es, hes⟩ := List.head?_eq_some_iff.1 he
  exact ⟨e, es, hes, hts⟩

theorem exists_stop (h : Catalogued metas load) (hm : m ∈ metas) :
    ∃ e es, load m.path = es ++ [e] ∧ e.timestamp = m.endTs := by
  obtain ⟨e, he, hts⟩ := Option.map_eq_some_iff.1 (h.stop m hm)
  obtain ⟨es, hes⟩ := List.getLast?_eq_some_iff.1 he
  exact ⟨e, es, hes, hts⟩

/-- The events of a block lie between its first and its last timestamp. -/
theorem mem_range (h : Catalogued metas load) (hm : m ∈ metas) {e : Event α}
    (he : e ∈ load m.path) : m.startTs ≤ e.timestamp ∧ e.timestamp ≤ m.endTs := by
  have hs := h.sorted m hm
  constructor
  · obtain ⟨e', es, hes, hts⟩ := h.exists_start hm
    rw [hes] at he hs
    rcases List.mem_cons.1 he with rfl | he
    · exact hts.ge
    · exact hts ▸ (List.pairwise_cons.1 hs).1 e he
  · obtain ⟨e', es, hes, hts⟩ := h.exists_stop hm
    rw [hes] at he hs
    rcases List.mem_append.1 he with he | he
    · exact hts ▸ (List.pairwise_append.1 hs).2.2 e he e' (List.mem_singleton_self e')
    · rw [List.mem_singleton.1 he, hts]

theorem start_le_stop (h : Catalogued metas load) (hm : m ∈ metas) : m.startTs ≤ m.endTs := by
  obtain ⟨e, es, hes, hts⟩ := h.exists_start hm
  exact hts ▸ (h.mem_range hm (by simp [hes])).2

theorem ne_nil (h : Catalogued metas load) (hm : m ∈ metas) : load m.path ≠ [] := by
  obtain ⟨e, es, hes, -⟩ := h.exists_start hm
  simp [hes]

/-- Blocks at different places have different paths. -/
theorem path_ne (h : Catalogued metas load) :
    metas.Pairwise fun m m' => m.endTs < m'.startTs ∧ m.path ≠ m'.path := by
  refine h.apart.imp_of_mem fun {m m'} hm hm' hlt => ⟨hlt, fun heq => ?_⟩
  obtain ⟨e, es, hes, hts⟩ := h.exists_start hm
  have h1 := (h.mem_range hm' (e := e) (by simp [← heq, hes])).1
  exact (hlt.trans_le h1).not_ge (h.mem_range hm (by simp [hes])).2

/-- The events of earlier blocks lie before those of later ones. -/
theorem lt_of_mem_append {l' : List BlockMeta} (h : Catalogued (l ++ l') load) {e e' : Event α}
    (he : e ∈ l.flatMap fun m => load m.path) (he' : e' ∈ l'.flatMap fun m => load m.path) :
    e.timestamp < e'.timestamp := by
  obtain ⟨m, hm, hem⟩ := List.mem_flatMap.1 he
  obtain ⟨m', hm', hem'⟩ := List.mem_flatMap.1 he'
  calc e.timestamp ≤ m.endTs := (h.mem_range (List.mem_append_left _ hm) hem).2
    _ < m'.startTs := (List.pairwise_append.1 h.apart).2.2 m hm m' hm'
    _ ≤ e'.timestamp := (h.mem_range (List.mem_append_right _ hm') hem').1

theorem isTsSorted_flatMap (h : Catalogued metas load) :
    isTsSorted Event.timestamp (metas.flatMap fun m => load m.path) := by
  refine List.pairwise_flatMap.2 ⟨h.sorted, h.apart.imp_of_mem fun {m m'} hm hm' hlt => ?_⟩
  intro e he e' he'
  exact (h.mem_range hm he).2.trans (hlt.le.trans (h.mem_range hm' he').1)

end Catalogued

/-! ### Merging a group -/

/-- Blocks listed in their order are merged into their concatenation. -/
theorem mergeBlockRange_of_catalogued {metas : List BlockMeta} {load : String → List (Event α)}
    (h : Catalogued metas load) (f : F) :
    mergeBlockRange f (metas.map fun m => load m.path) =
      .ok ((metas.flatMap fun m => load m.path).map fun e => (f, e)) := by
  induction metas using List.reverseRecOn with
  | nil => rfl
  | append_singleton metas m ih =>
    have hmerge : mergeNamed ((metas.flatMap fun m => load m.path).map fun e => (f, e))
        ((load m.path).map fun e => (f, e)) =
        ((metas ++ [m]).flatMap fun m => load m.path).map fun e => (f, e) := by
      rw [List.flatMap_append, List.flatMap_singleton, List.map_append]
      refine List.merge_of_le fun x y hx hy => decide_eq_true ?_
      obtain ⟨e, he, rfl⟩ := List.mem_map.1 hx
      obtain ⟨e', he', rfl⟩ := List.mem_map.1 hy
      exact (h.lt_of_mem_append he (by simpa using he')).le
    have ih := ih (h.of_sublist (List.sublist_append_left _ _))
    rw [mergeBlockRange] at ih ⊢
    rw [List.map_append, List.foldlM_append, ih, List.map_singleton]
    simp only [bind, Except.bind, List.foldlM_cons, List.foldlM_nil, dfToEvents,
      if_pos (h.sorted m (by simp)), Except.map, hmerge]
    rfl

theorem mergeNamed_of_lt {l l' : List (F × Event α)}
    (h : ∀ x ∈ l, ∀ y ∈ l', y.2.timestamp < x.2.timestamp) : mergeNamed l l' = l' ++ l := by
  unfold mergeNamed
  induction l' with
  | nil => simp
  | cons y l' ih =>
    cases l with
    | nil => simp
    | cons x l =>
      rw [List.cons_merge_cons, if_neg, ih fun x hx y hy => h x hx y (List.mem_cons_of_mem _ hy)]
      · rfl
      · simpa using h x List.mem_cons_self y List.mem_cons_self

/-- Blocks listed from the last to the first are merged into their concatenation. -/
theorem mergeBlockRange_reverse {metas : List BlockMeta} {load : String → List (Event α)}
    (h : Catalogued metas load) (f : F) :
    mergeBlockRange f (metas.reverse.map fun m => load m.path) =
      .ok ((metas.flatMap fun m => load m.path).map fun e => (f, e)) := by
  suffices ∀ acc : List BlockMeta, Catalogued (metas ++ acc) load →
      (metas.reverse.map fun m => load m.path).foldlM (fun named block =>
        (dfToEvents block).map fun events => mergeNamed named (events.map fun e => (f, e)))
        ((acc.flatMap fun m => load m.path).map fun e => (f, e)) =
      .ok (((metas ++ acc).flatMap fun m => load m.path).map fun e => (f, e)) by
    have hall := this [] (by simpa using h)
    rw [List.append_nil] at hall
    exact hall
  clear h
  induction metas using List.reverseRecOn with
  | nil => intro acc _; rfl
  | append_singleton metas m ih =>
    intro acc h
    have hmem : m ∈ metas ++ [m] ++ acc := by simp
    have hmerge : mergeNamed ((acc.flatMap fun m => load m.path).map fun e => (f, e))
        ((load m.path).map fun e => (f, e)) =
        (((m :: acc).flatMap fun m => load m.path).map fun e => (f, e)) := by
      rw [mergeNamed_of_lt, List.flatMap_cons, List.map_append]
      intro x hx y hy
      obtain ⟨e, he, rfl⟩ := List.mem_map.1 hx
      obtain ⟨e', he', rfl⟩ := List.mem_map.1 hy
      exact h.lt_of_mem_append (by simp [he']) he
    rw [List.reverse_append, List.reverse_singleton, List.map_append, List.map_singleton,
      List.singleton_append, List.foldlM_cons, dfToEvents, if_pos (h.sorted m hmem)]
    simp only [Except.map, bind, Except.bind, hmerge]
    rw [← List.append_cons] at h ⊢
    exact ih (m :: acc) h

/-- The events of catalogued blocks, as those of a feature. -/
def namedEvents (dep : F) (load : String → List (Event α)) (metas : List BlockMeta) :
    List (F × Event α) :=
  (metas.flatMap fun m => load m.path).map fun e => (dep, e)

/-- The calculation of a group that is listed in order. -/
theorem calculateBlock_of_catalogued {group : List BlockMeta} {load : String → List (Event α)}
    (h : Catalogued group load) (out : List (F × Event α) → List (Event β)) (I : ClosedInterval ℚ)
    (dep : F) : calculateBlock load out I [(dep, group)] =
      .ok (runNamedEventsStream out (namedEvents dep load group) (some I)) := by
  rw [calculateBlock, List.map_singleton, mergeBlocks, mergeBlockRange_of_catalogued h]
  rfl

/-! ### Looking back a window -/

section Lookback

variable {window : Window} {apply : List (Event α) → Event β}

@[simp] theorem lookbackApply_named (f : F) (l : List (Event α)) :
    lookbackApply window apply (l.map fun e => (f, e)) =
      (accumulate (dequeAndApply window apply) [] l).2 := by
  simp [lookbackApply, Function.comp_def]

/-- The deque after an event: what of the whole past is within the window. -/
theorem dequeAndApply_accumulate {l : List (Event α)} {e : Event α}
    (hs : isTsSorted Event.timestamp (l ++ [e])) :
    dequeAndApply window apply (accumulate (dequeAndApply window apply) [] l).1 e =
      ((l ++ [e]).dropWhile fun x => convertStrToSeconds window < e.timestamp - x.timestamp,
        apply ((l ++ [e]).dropWhile fun x =>
          convertStrToSeconds window < e.timestamp - x.timestamp)) := by
  induction l using List.reverseRecOn generalizing e with
  | nil => rfl
  | append_singleton l e' ih =>
    have hl := (List.pairwise_append.1 hs).1
    have hle := (List.pairwise_append.1 hs).2.2 e' (by simp) e (List.mem_singleton_self e)
    have hstate : (accumulate (dequeAndApply window apply) [] (l ++ [e'])).1 =
        (l ++ [e']).dropWhile fun x =>
          convertStrToSeconds window < e'.timestamp - x.timestamp := by
      rw [accumulate_append]
      exact congrArg Prod.fst (ih hl)
    have hcut : (((l ++ [e']).dropWhile fun x => decide
        (convertStrToSeconds window < e'.timestamp - x.timestamp)) ++ [e]).dropWhile
          (fun x => decide (convertStrToSeconds window < e.timestamp - x.timestamp)) =
        (l ++ [e'] ++ [e]).dropWhile fun x =>
          decide (convertStrToSeconds window < e.timestamp - x.timestamp) := by
      refine dropWhile_append_of_imp (fun x hx => ?_) _ _
      rw [decide_eq_true_eq] at hx ⊢
      linarith
    rw [hstate, dequeAndApply, hcut]

/-- Events more than a window before all of `l'` do not matter to its outputs. -/
theorem accumulate_forget {l₀ l l' : List (Event α)}
    (hs : isTsSorted Event.timestamp (l₀ ++ l ++ l'))
    (hfar : ∀ x ∈ l₀, ∀ e ∈ l', convertStrToSeconds window < e.timestamp - x.timestamp) :
    (accumulate (dequeAndApply window apply)
        (accumulate (dequeAndApply window apply) [] (l₀ ++ l)).1 l').2 =
      (accumulate (dequeAndApply window apply)
        (accumulate (dequeAndApply window apply) [] l).1 l').2 := by
  cases l' with
  | nil => rfl
  | cons e l' =>
    have hsub : (l₀ ++ l ++ [e]).Sublist (l₀ ++ l ++ e :: l') :=
      (List.Sublist.refl _).append (by simp)
    have hsub' : (l ++ [e]).Sublist (l₀ ++ l ++ [e]) := by
      rw [List.append_assoc]
      exact List.sublist_append_right _ _
    have hdrop : (l₀ ++ l ++ [e]).dropWhile (fun x =>
        decide (convertStrToSeconds window < e.timestamp - x.timestamp)) =
        (l ++ [e]).dropWhile fun x =>
          decide (convertStrToSeconds window < e.timestamp - x.timestamp) := by
      rw [List.append_assoc, List.dropWhile_append_of_pos]
      exact fun x hx => decide_eq_true (hfar x hx e List.mem_cons_self)
    rw [accumulate_cons, accumulate_cons, dequeAndApply_accumulate (hs.sublist hsub),
      dequeAndApply_accumulate ((hs.sublist hsub).sublist hsub'), hdrop]

/-- Every output has the timestamp of its event. -/
theorem map_timestamp_accumulate
    (hstamp : ∀ es e, (apply (es ++ [e])).timestamp = e.timestamp) (deque l : List (Event α)) :
    (accumulate (dequeAndApply window apply) deque l).2.map Event.timestamp =
      l.map Event.timestamp := by
  induction l generalizing deque with
  | nil => rfl
  | cons e l ih =>
    rw [accumulate_cons, List.map_cons, List.map_cons, ih]
    congr 1
    -- the event itself is never popped
    have hkeep : ∃ es, (deque ++ [e]).dropWhile (fun x =>
        decide (convertStrToSeconds window < e.timestamp - x.timestamp)) = es ++ [e] := by
      have he : ¬ convertStrToSeconds window < e.timestamp - e.timestamp := by
        rw [sub_self, not_lt]
        exact convertStrToSeconds_nonneg window
      induction deque with
      | nil => exact ⟨[], List.dropWhile_cons_of_neg (by rwa [decide_eq_true_eq])⟩
      | cons x deque ihd =>
        rw [List.cons_append, List.dropWhile_cons]
        split_ifs
        · exact ihd
        · exact ⟨x :: deque, rfl⟩
    obtain ⟨es, hes⟩ := hkeep
    rw [dequeAndApply]
    simp only [hes, hstamp]

/-- Every output is at the time of an event. -/
theorem exists_of_mem_accumulate
    (hstamp : ∀ es e, (apply (es ++ [e])).timestamp = e.timestamp) {deque l : List (Event α)}
    {o : Event β} (ho : o ∈ (accumulate (dequeAndApply window apply) deque l).2) :
    ∃ e ∈ l, e.timestamp = o.timestamp := by
  have hmem := List.mem_map_of_mem (f := Event.timestamp) ho
  rw [map_timestamp_accumulate hstamp] at hmem
  exact List.mem_map.1 hmem

end Lookback

/-! ### The blocks of a windowed grouping -/

/-- What a stream emits for the events `named`, when it is fed `before` first and `behind` last. -/
def outputsFor (out : List (F × Event α) → List (Event β))
    (before named behind : List (F × Event α)) : List (Event β) :=
  ((out (before ++ named ++ behind)).drop before.length).take named.length

/-- The interval and the group of each block; `prev` are the blocks passed, last first. -/
def windowedGroups (window : Window) :
    List BlockMeta → List BlockMeta → List (ClosedInterval ℚ × List BlockMeta)
  | _, [] => []
  | prev, m :: ranges =>
    (⟨m.startTs, m.endTs⟩, windowedBlocks window prev m) :: windowedGroups window (m :: prev) ranges

section Grouping

variable {window : Window} {apply : List (Event α) → Event β} {load : String → List (Event α)}
  {metas passed l l' : List BlockMeta} {m : BlockMeta}

theorem map_windowedGroups (window : Window) (prev metas : List BlockMeta) :
    (windowedGroups window prev metas).map (fun p => (p.1, p.2.head?)) =
      metas.map fun m => (⟨m.startTs, m.endTs⟩, some m) := by
  induction metas generalizing prev with
  | nil => rfl
  | cons m metas ih => rw [windowedGroups, List.map_cons, ih]; rfl

theorem mem_windowedGroups (prev : List BlockMeta) :
    (⟨m.startTs, m.endTs⟩, windowedBlocks window (l.reverse ++ prev) m) ∈
      windowedGroups window prev (l ++ m :: l') := by
  induction l generalizing prev with
  | nil => exact List.mem_cons_self
  | cons a l ih =>
    rw [List.reverse_cons, List.append_assoc, List.singleton_append]
    exact List.mem_cons_of_mem _ (ih (a :: prev))

/-- The group of a block is the block and the ones before it that end at most a window before it
starts, listed backwards. -/
theorem exists_windowedBlocks (window : Window) (h : Catalogued (passed ++ m :: l') load) :
    ∃ far near, passed = far ++ near ∧
      windowedBlocks window passed.reverse m = (near ++ [m]).reverse ∧
      ∀ a ∈ far, convertStrToSeconds window < m.startTs - a.endTs := by
  set P : BlockMeta → Bool := fun a => m.startTs - a.endTs ≤ convertStrToSeconds window with hP
  refine ⟨(passed.reverse.dropWhile P).reverse, (passed.reverse.takeWhile P).reverse, ?_, ?_, ?_⟩
  · rw [← List.reverse_append, List.takeWhile_append_dropWhile, List.reverse_reverse]
  · rw [List.reverse_append, List.reverse_reverse]
    rfl
  · intro a ha
    have hpassed : Catalogued passed load := h.of_sublist (List.sublist_append_left _ _)
    have hnot : P a = false := by
      refine not_of_mem_dropWhile (l := passed.reverse) ?_ (List.mem_reverse.1 ha)
      -- the ends decrease along the reversed blocks
      refine List.pairwise_reverse.2 (hpassed.apart.imp_of_mem fun {b a} hb ha hlt hfalse => ?_)
      have hle := hpassed.start_le_stop ha
      simp only [hP, decide_eq_false_iff_not, not_le] at hfalse ⊢
      linarith
    simpa only [hP, decide_eq_false_iff_not, not_le] using hnot

/-- **The calculation of a block**: the stream's outputs for it, as if the stream had been fed all
earlier blocks. -/
theorem calculateBlock_windowedBlocks (h : Catalogued (passed ++ m :: l') load)
    (hstamp : ∀ es e, (apply (es ++ [e])).timestamp = e.timestamp) (dep : F) :
    calculateBlock load (lookbackApply window apply) ⟨m.startTs, m.endTs⟩
        [(dep, windowedBlocks window passed.reverse m)] =
      .ok (accumulate (dequeAndApply window apply) (accumulate (dequeAndApply window apply) []
        (passed.flatMap fun m => load m.path)).1 (load m.path)).2 := by
  obtain ⟨far, near, rfl, hgroup, hfar⟩ := exists_windowedBlocks window h
  have hsub : (far ++ near ++ [m]).Sublist (far ++ near ++ m :: l') :=
    (List.Sublist.refl _).append (by simp)
  have hall : Catalogued (far ++ (near ++ [m])) load := by
    rw [← List.append_assoc]
    exact h.of_sublist hsub
  have hgrp : Catalogued (near ++ [m]) load := hall.of_sublist (List.sublist_append_right _ _)
  have hmem : m ∈ near ++ [m] := by simp
  have hmerge : mergeBlocks (([(dep, windowedBlocks window (far ++ near).reverse m)] :
      List (F × List BlockMeta)).map fun p => (p.1, p.2.map fun m => load m.path)) =
      .ok (((near ++ [m]).flatMap fun m => load m.path).map fun e => (dep, e)) := by
    rw [hgroup, List.map_singleton, mergeBlocks, mergeBlockRange_reverse hgrp]
    rfl
  have hevents : (near ++ [m]).flatMap (fun m => load m.path) =
      (near.flatMap fun m => load m.path) ++ load m.path := by simp
  -- the outputs for the blocks before are below the interval, those for the block are in it
  have hwarm : ((accumulate (dequeAndApply window apply) []
      (near.flatMap fun m => load m.path)).2.filter fun e =>
        m.startTs ≤ e.timestamp ∧ e.timestamp ≤ m.endTs) = [] := by
    refine List.filter_eq_nil_iff.2 fun o ho => ?_
    obtain ⟨e, he, hts⟩ := exists_of_mem_accumulate hstamp ho
    obtain ⟨e', es, hes, hts'⟩ := hgrp.exists_start hmem
    have he' : e' ∈ [m].flatMap fun m => load m.path := by simp [hes]
    have hlt := hgrp.lt_of_mem_append he he'
    rw [decide_eq_true_eq]
    exact fun hin => (hts' ▸ hts ▸ hlt).not_ge hin.1
  have hkeep : ∀ deque, ((accumulate (dequeAndApply window apply) deque (load m.path)).2.filter
      fun e => m.startTs ≤ e.timestamp ∧ e.timestamp ≤ m.endTs) =
      (accumulate (dequeAndApply window apply) deque (load m.path)).2 := by
    refine fun deque => List.filter_eq_self.2 fun o ho => ?_
    obtain ⟨e, he, hts⟩ := exists_of_mem_accumulate hstamp ho
    rw [decide_eq_true_eq, ← hts]
    exact hgrp.mem_range hmem he
  have hsorted : isTsSorted Event.timestamp ((far.flatMap fun m => load m.path) ++
      (near.flatMap fun m => load m.path) ++ load m.path) := by simpa using hall.isTsSorted_flatMap
  have hforget : ∀ x ∈ far.flatMap fun m => load m.path, ∀ e ∈ load m.path,
      convertStrToSeconds window < e.timestamp - x.timestamp := fun x hx e he => by
    obtain ⟨a, ha, hxa⟩ := List.mem_flatMap.1 hx
    have h1 := (hall.mem_range (List.mem_append_left _ ha) hxa).2
    have h2 := (hgrp.mem_range hmem he).1
    linarith [hfar a ha]
  have hflat : (far ++ near).flatMap (fun m => load m.path) =
      (far.flatMap fun m => load m.path) ++ near.flatMap fun m => load m.path :=
    List.flatMap_append
  rw [calculateBlock, hmerge, Except.map, runNamedEventsStream, lookbackApply_named, hevents,
    accumulate_append, List.filter_append, hwarm, hkeep, List.nil_append, hflat,
    accumulate_forget hsorted hforget]

/-- The calculations of all blocks, from the blocks passed on. -/
theorem forall₂_calculateBlock (passed : List BlockMeta) (h : Catalogued (passed ++ metas) load)
    (hstamp : ∀ es e, (apply (es ++ [e])).timestamp = e.timestamp) (dep : F) :
    List.Forall₂ (fun p out =>
        calculateBlock load (lookbackApply window apply) p.1 [(dep, p.2)] = .ok out)
      (windowedGroups window passed.reverse metas)
      (accumulatePieces (dequeAndApply window apply) (accumulate (dequeAndApply window apply) []
        (passed.flatMap fun m => load m.path)).1 (metas.map fun m => load m.path)) := by
  induction metas generalizing passed with
  | nil => exact .nil
  | cons m metas ih =>
    refine .cons (calculateBlock_windowedBlocks h hstamp dep) ?_
    rw [List.append_cons] at h
    have htail := ih _ h
    rw [List.reverse_append, List.flatMap_append, accumulate_append] at htail
    simpa using htail

/-- The loop sets the groups one after the other. -/
theorem windowedGroupingLoop_eq
    (hI : ∀ m ∈ metas, metaToInterval m = .ok ⟨m.startTs, m.endTs⟩) (prev : List BlockMeta)
    (res : IntervalDict (Cut ℚ) (List BlockMeta)) :
    windowedGroupingLoop window res prev metas =
      .ok (((windowedGroups window prev metas).map fun p => (p.1.toInterval, p.2)).foldl
        (fun d p => d.set p.1 p.2) res) := by
  induction metas generalizing prev res with
  | nil => rfl
  | cons m metas ih =>
    rw [windowedGroupingLoop, hI m List.mem_cons_self]
    exact ih (fun m' hm' => hI m' (List.mem_cons_of_mem _ hm')) _ _

/-- The groups are the items of the windowed grouping. -/
theorem exists_windowedGrouping (window : Window) (h : Catalogued metas load)
    (hI : ∀ m ∈ metas, metaToInterval m = .ok ⟨m.startTs, m.endTs⟩) :
    ∃ d, windowedGrouping metas window = .ok d ∧
      d.items = (windowedGroups window [] metas).map (fun p => (p.1.toInterval, p.2)) ∧
      (∀ p ∈ windowedGroups window [] metas, p.1.lower ≤ p.1.upper) ∧
      (windowedGroups window [] metas).Pairwise fun p q => p.1.upper < q.1.lower := by
  have hmap := map_windowedGroups window [] metas
  have hle : ∀ p ∈ windowedGroups window [] metas, p.1.lower ≤ p.1.upper := by
    intro p hp
    have hmem := List.mem_map_of_mem (f := fun p : ClosedInterval ℚ × List BlockMeta =>
      (p.1, p.2.head?)) hp
    rw [hmap] at hmem
    obtain ⟨m, hm, heq⟩ := List.mem_map.1 hmem
    rw [← (Prod.mk.inj heq).1]
    exact h.start_le_stop hm
  -- different blocks head different groups
  have hpair : (windowedGroups window [] metas).Pairwise fun p q =>
      p.1.upper < q.1.lower ∧ p.2 ≠ q.2 := by
    have hheads : ((windowedGroups window [] metas).map fun p => (p.1, p.2.head?)).Pairwise
        fun p q => p.1.upper < q.1.lower ∧ p.2 ≠ q.2 := by
      rw [hmap]
      refine List.pairwise_map.2 (h.path_ne.imp fun {m m'} hmm => ⟨hmm.1, fun heq => hmm.2 ?_⟩)
      exact congrArg BlockMeta.path (Option.some.inj heq)
    exact (List.pairwise_map.1 hheads).imp fun hpq =>
      ⟨hpq.1, fun heq => hpq.2 (congrArg List.head? heq)⟩
  exact ⟨_, windowedGroupingLoop_eq hI [] .empty, IntervalDict.items_ofItems_closed hle hpair, hle,
    hpair.imp And.left⟩

theorem outputsFor_lookbackApply (dep : F) (before block behind : List (Event α)) :
    outputsFor (lookbackApply window apply) (before.map fun e => (dep, e))
        (block.map fun e => (dep, e)) (behind.map fun e => (dep, e)) =
      (accumulate (dequeAndApply window apply)
        (accumulate (dequeAndApply window apply) [] before).1 block).2 := by
  rw [outputsFor, ← List.map_append, ← List.map_append, lookbackApply_named, List.append_assoc,
    accumulate_append, accumulate_append, List.length_map, List.length_map]
  rw [List.drop_left' length_accumulate, List.take_left' length_accumulate]

end Grouping

/-- **A windowed feature can be computed block by block.**  For blocks with timestamps in whole
milliseconds, each block's group gives the outputs that the stream over the whole sequence has for
that block, and the blocks' outputs one after the other are those of the stream over the whole
sequence. -/
theorem computeBlocks_windowedGrouping [DecidableEq F] {metas : List BlockMeta}
    {load : String → List (Event α)} {apply : List (Event α) → Event β}
    (h : Catalogued metas load)
    (hms : ∀ m ∈ metas, ∀ e ∈ load m.path, ∃ n : ℤ, e.timestamp = n / 1000)
    (hstamp : ∀ es e, (apply (es ++ [e])).timestamp = e.timestamp) (window : Window) (dep : F) :
    ∃ d, windowedGrouping metas window = .ok d ∧
      (∀ l m l', metas = l ++ m :: l' → ∃ I group, metaToInterval m = .ok I ∧
        (I.toInterval, group) ∈ d.items ∧
        calculateBlock load (lookbackApply window apply) I [(dep, group)] =
          .ok (outputsFor (lookbackApply window apply) (namedEvents dep load l)
            (namedEvents dep load [m]) (namedEvents dep load l'))) ∧
      ∃ outs, computeBlocks dep load (lookbackApply window apply) d = .ok outs ∧
        outs.flatten = lookbackApply window apply (namedEvents dep load metas) := by
  have hI : ∀ m ∈ metas, metaToInterval m = .ok ⟨m.startTs, m.endTs⟩ := by
    intro m hm
    obtain ⟨e, es, hes, hts⟩ := h.exists_start hm
    obtain ⟨e', es', hes', hts'⟩ := h.exists_stop hm
    obtain ⟨n, hn⟩ := hms m hm e (by simp [hes])
    obtain ⟨n', hn'⟩ := hms m hm e' (by simp [hes'])
    rw [metaToInterval_of_le (h.start_le_stop hm), ← hts, ← hts', hn, hn', roundFloat_of_ms,
      roundFloat_of_ms]
  obtain ⟨d, hd, hitems, hle, hpair⟩ := exists_windowedGrouping window h hI
  refine ⟨d, hd, ?_, ?_⟩
  · rintro l m l' rfl
    refine ⟨_, windowedBlocks window l.reverse m, hI m (by simp), ?_, ?_⟩
    · rw [hitems, ← List.append_nil l.reverse]
      exact List.mem_map_of_mem (f := fun p : ClosedInterval ℚ × List BlockMeta =>
        (p.1.toInterval, p.2)) (mem_windowedGroups [])
    · rw [calculateBlock_windowedBlocks h hstamp, namedEvents, namedEvents, namedEvents,
        outputsFor_lookbackApply, List.flatMap_singleton]
  · refine ⟨accumulatePieces (dequeAndApply window apply) [] (metas.map fun m => load m.path),
      ?_, ?_⟩
    · rw [computeBlocks, getOverlaps_single_of_items dep hitems hle hpair]
      exact mapM_eq_ok_iff.2 (List.forall₂_map_left_iff.2
        (forall₂_calculateBlock [] h hstamp dep))
    · rw [namedEvents, lookbackApply_named, List.flatMap_def, flatten_accumulatePieces]

/-- Three catalogued blocks; a window of a second reaches back to the first one from the last. -/
def threeMetas : List BlockMeta := [⟨0, 2 / 5, "a"⟩, ⟨1 / 2, 1, "b"⟩, ⟨6 / 5, 3, "c"⟩]

/-- Their events. -/
def threeLoads (path : String) : List (Event ℕ) :=
  if path = "a" then [⟨0, 1⟩, ⟨2 / 5, 2⟩]
  else if path = "b" then [⟨1 / 2, 3⟩, ⟨1, 4⟩]
  else [⟨6 / 5, 5⟩, ⟨3, 6⟩]

/-- The sum over a window, at the time of its last event. -/
def windowSum (es : List (Event ℕ)) : Event ℕ :=
  ⟨(es.getLast?.map Event.timestamp).getD 0, (es.map Event.data).sum⟩

theorem computeBlocks_threeMetas :
    ∃ d outs, windowedGrouping threeMetas ⟨1, .s⟩ = .ok d ∧
      computeBlocks "mid" threeLoads (lookbackApply ⟨1, .s⟩ windowSum) d = .ok outs ∧
      outs.flatten = [⟨0, 1⟩, ⟨2 / 5, 3⟩, ⟨1 / 2, 6⟩, ⟨1, 10⟩, ⟨6 / 5, 14⟩, ⟨3, 6⟩] := by
  have hms : ∀ m ∈ threeMetas, ∀ e ∈ threeLoads m.path, ∃ n : ℤ, e.timestamp = n / 1000 := by
    have hden : ∀ m ∈ threeMetas, ∀ e ∈ threeLoads m.path, e.timestamp * 1000 =
        ((e.timestamp * 1000).num : ℚ) := by decide +kernel
    exact fun m hm e he => ⟨_, by rw [← hden m hm e he]; ring⟩
  have h : Catalogued threeMetas threeLoads :=
    ⟨by decide +kernel, by decide +kernel, by decide +kernel, by decide +kernel⟩
  have hstamp : ∀ es e, (windowSum (es ++ [e])).timestamp = e.timestamp := by simp [windowSum]
  obtain ⟨d, hd, -, outs, houts, hflat⟩ :=
    computeBlocks_windowedGrouping h hms hstamp ⟨1, .s⟩ "mid"
  exact ⟨d, outs, hd, houts, hflat.trans (by decide +kernel)⟩

end Svoe
