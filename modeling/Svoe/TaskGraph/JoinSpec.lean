import Svoe.TaskGraph.Join

/-!
# What the point-in-time join computes

All joined features have their blocks in one shared range (`SharedRange`).  Then the rows of a
task are those of the sequential join over the whole range with a timestamp in the task's slice
(`pointInTimeJoinBlock_eq`), so no row is wrong (`pointInTimeJoin_sound`).  Rows are missing when a
label row lies in a gap between two blocks of another feature, and a task raises when its slice
has no label row (`pointInTimeJoin_complete_iff`).
-/

namespace Svoe

open Portion Series

variable {F N α : Type*} [DecidableEq F] [DecidableEq N]

/-! ### One shared range -/

/-- All joined features have nodes in one shared range interval; the blocks of each are sorted
blocks inside disjoint intervals. -/
structure SharedRange (dag : Dag F N) (features : List F) (range : ClosedInterval ℚ)
    (nodes : F → List (ClosedInterval ℚ × N)) (block : N → List (Event α)) : Prop where
  features_ne : features ≠ []
  dag_eq : ∀ f ∈ features, dag f = some [(range, nodes f)]
  nodes_ne : ∀ f ∈ features, nodes f ≠ []
  in_range : ∀ f ∈ features, ∀ p ∈ nodes f, ∃ t, t ∈ range ∧ t ∈ p.1
  seq : ∀ f ∈ features, BlockSeq (blocksOf block (nodes f))

/-- The features in the order of the joined frames: the label first. -/
def joinOrder (label : Option F) (features : List F) : List F :=
  match label with
  | none => joinedFeatures features
  | some l => l :: (joinedFeatures features).filter (· ≠ l)

/-- The sequential join over the full concatenations. -/
def sequentialJoin (nodes : F → List (ClosedInterval ℚ × N)) (block : N → List (Event α))
    (features : List F) (label : Option F) : Except PyError (List (JoinedRow α)) :=
  mergeAsofMulti ((joinOrder label features).map fun f => fullFrame block (nodes f))

/-- The nodes of a label (`true`) with one block, and of a feature with two blocks, the second
from `lo` on. -/
def twoNodes (lo : ℚ) : Bool → List (ClosedInterval ℚ × ℕ)
  | true => [(⟨0, 10⟩, 0)]
  | false => [(⟨0, 4⟩, 1), (⟨lo, 10⟩, 2)]

/-- The label's block, and the other feature's two. -/
def twoBlocks : ℕ → List (Event ℕ)
  | 0 => [⟨2, 20⟩, ⟨21 / 5, 42⟩, ⟨6, 60⟩]
  | 1 => [⟨1, 10⟩, ⟨4, 40⟩]
  | _ => [⟨5, 50⟩, ⟨9, 90⟩]

/-- The graph of both features, in the range `[0, 10]`. -/
def twoDag (lo : ℚ) : Dag Bool ℕ := fun f => some [(⟨0, 10⟩, twoNodes lo f)]

theorem sharedRange_twoDag {lo : ℚ} (h4 : 4 < lo) (h5 : lo ≤ 5) :
    SharedRange (twoDag lo) [false, true] ⟨0, 10⟩ (twoNodes lo) twoBlocks where
  features_ne := by simp
  dag_eq := by simp [twoDag]
  nodes_ne := by simp [twoNodes]
  in_range := by
    intro f _ p hp
    cases f with
    | true =>
      obtain rfl := List.mem_singleton.1 hp
      exact ⟨0, by decide +kernel, by decide +kernel⟩
    | false =>
      rcases List.mem_pair.1 hp with rfl | rfl
      · exact ⟨0, by decide +kernel, by decide +kernel⟩
      · exact ⟨10, by decide +kernel, by change lo ≤ 10; linarith, le_rfl⟩
  seq := by
    intro f _
    cases f with
    | true =>
      refine ⟨by simp [blocksOf, twoNodes, twoBlocks], ?_, ?_, by simp [blocksOf, twoNodes]⟩
      · norm_num [blocksOf, twoNodes, twoBlocks, isTsSorted]
      · norm_num [blocksOf, twoNodes, twoBlocks, ClosedInterval.mem_def]
    | false =>
      refine ⟨by simp [blocksOf, twoNodes, twoBlocks], ?_, ?_, ?_⟩
      · norm_num [blocksOf, twoNodes, twoBlocks, isTsSorted]
      · norm_num [blocksOf, twoNodes, twoBlocks, ClosedInterval.mem_def]
        constructor <;> linarith
      · simpa [blocksOf, twoNodes, twoBlocks] using h4

@[simp] theorem mem_joinedFeatures {features : List F} {f : F} :
    f ∈ joinedFeatures features ↔ f ∈ features := by
  simp [joinedFeatures, List.mem_dedup]

theorem nodup_joinedFeatures (features : List F) : (joinedFeatures features).Nodup :=
  List.nodup_reverse.2 (List.nodup_dedup _)

theorem orderFrames_map {features : List F} {label : Option F}
    (hl : ∀ l, label = some l → l ∈ features) (X : F → List (Event α)) :
    orderFrames label ((joinedFeatures features).map fun f => (f, X f)) =
      .ok ((joinOrder label features).map X) := by
  cases label with
  | none => simp [orderFrames, joinOrder]
  | some l =>
    have hnd : (((joinedFeatures features).map fun f => (f, X f)).map Prod.fst).Nodup := by
      simpa [Function.comp_def] using nodup_joinedFeatures features
    have hget : dictGet ((joinedFeatures features).map fun f => (f, X f)) l = some (X l) :=
      (dictGet_eq_some_iff hnd).2
        (List.mem_map_of_mem (f := fun f => (f, X f)) (mem_joinedFeatures.2 (hl l rfl)))
    simp only [orderFrames, hget, joinOrder]
    simp [List.filter_map, Function.comp_def]

theorem mem_of_mem_joinOrder {features : List F} {label : Option F}
    (hl : ∀ l, label = some l → l ∈ features) {f : F} (hf : f ∈ joinOrder label features) :
    f ∈ features := by
  cases label with
  | none => exact mem_joinedFeatures.1 hf
  | some l =>
    rcases List.mem_cons.1 hf with rfl | hf
    · exact hl f rfl
    · exact mem_joinedFeatures.1 (List.mem_filter.1 hf).1

theorem exists_joinOrder {features : List F} (h : features ≠ []) (label : Option F) :
    ∃ lf others, joinOrder label features = lf :: others := by
  cases label with
  | some l => exact ⟨l, _, rfl⟩
  | none =>
    obtain ⟨f, hf⟩ := List.exists_mem_of_ne_nil _ h
    exact List.exists_cons_of_ne_nil (List.ne_nil_of_mem (mem_joinedFeatures.2 hf))

/-! ### The nodes of a feature -/

section Nodes

variable {block : N → List (Event α)} {ns : List (ClosedInterval ℚ × N)}

omit [DecidableEq N] in
theorem lower_le_upper_of_seq (h : BlockSeq (blocksOf block ns)) {p : ClosedInterval ℚ × N}
    (hp : p ∈ ns) : p.1.lower ≤ p.1.upper :=
  h.lower_le_upper (p := (p.1, block p.2)) (List.mem_map_of_mem hp)

omit [DecidableEq N] in
/-- Different blocks have different nodes: their events are not in the same interval. -/
theorem pairwise_of_seq (h : BlockSeq (blocksOf block ns)) :
    ns.Pairwise fun p q => p.1.upper < q.1.lower ∧ p.2 ≠ q.2 := by
  refine (List.pairwise_map.1 h.apart).imp_of_mem fun {p q} hp hq hlt => ⟨hlt, fun heq => ?_⟩
  have hp := List.mem_map_of_mem (f := fun p => (p.1, block p.2)) hp
  have hq := List.mem_map_of_mem (f := fun p => (p.1, block p.2)) hq
  obtain ⟨e, he⟩ := List.exists_mem_of_ne_nil _ (h.nonempty _ hp)
  have h1 := h.inside _ hp e he
  have h2 := h.inside _ hq e (by simpa [heq] using he)
  exact (h1.2.trans_lt (hlt.trans_le h2.1)).false

theorem items_nodesDict (h : BlockSeq (blocksOf block ns)) :
    (nodesDict ns).items = ns.map fun p => (p.1.toInterval, p.2) :=
  IntervalDict.items_ofItems_closed (fun _ hp => lower_le_upper_of_seq h hp) (pairwise_of_seq h)

theorem closedKeys_nodesDict (h : BlockSeq (blocksOf block ns)) : ClosedKeys (nodesDict ns) := by
  intro q hq
  rw [items_nodesDict h, List.mem_map] at hq
  obtain ⟨p, -, rfl⟩ := hq
  exact ⟨p.1, rfl⟩

theorem lookup_nodesDict (h : BlockSeq (blocksOf block ns)) {c : Cut ℚ} {n : N} :
    (nodesDict ns).lookup c = some n ↔ ∃ I, (I, n) ∈ ns ∧ c ∈ I.toInterval := by
  rw [IntervalDict.lookup_eq_some_iff, items_nodesDict h]
  constructor
  · rintro ⟨I, hI, hc⟩
    obtain ⟨p, hp, heq⟩ := List.mem_map.1 hI
    obtain ⟨rfl, rfl⟩ := Prod.mk.inj heq
    exact ⟨p.1, hp, hc⟩
  · rintro ⟨I, hI, hc⟩
    exact ⟨_, List.mem_map_of_mem (f := fun p => (p.1.toInterval, p.2)) hI, hc⟩

/-- The first node has no previous one, any other one has the node before it. -/
theorem prevNode_eq {n : N} {A B : List N} (hA : n ∉ A) (hB : n ∉ B) :
    prevNode n (A ++ n :: B) = A.getLast? := by
  unfold prevNode
  induction A with
  | nil =>
    have hnil : (((n :: B).zip B).filter fun p => p.2 = n) = [] := by
      refine List.filter_eq_nil_iff.2 fun p hp => ?_
      have := (List.of_mem_zip hp).2
      simp only [decide_eq_true_eq]
      rintro rfl
      exact hB this
    simp [hnil]
  | cons a A ih =>
    rw [List.mem_cons, not_or] at hA
    specialize ih hA.2
    cases A with
    | nil =>
      have hnil : (((n :: B).zip B).filter fun p => p.2 = n) = [] := by simpa using ih
      simp [hnil]
    | cons a' A =>
      have ha' : a' ≠ n := fun h => hA.2 (h ▸ List.mem_cons_self)
      simpa [ha'] using ih

end Nodes

/-! ### Slices -/

section Slices

variable {dag : Dag F N} {features : List F} {range : ClosedInterval ℚ}
  {nodes : F → List (ClosedInterval ℚ × N)} {block : N → List (Event α)}

/-- The dictionaries whose overlaps are the slices. -/
def nodesPerFeature (nodes : F → List (ClosedInterval ℚ × N)) (features : List F) :
    List (F × IntervalDict (Cut ℚ) N) :=
  (joinedFeatures features).map fun f => (f, nodesDict (nodes f))

/-- What the overlaps of the joined features' blocks are: sorted disjoint slices with one node per
feature, whose block's interval contains the slice; a time in a block of every feature is in a
slice, together with all times in the same blocks. -/
structure Slices (nodes : F → List (ClosedInterval ℚ × N)) (features : List F)
    (overlaps : List (ClosedInterval ℚ × List (F × N))) : Prop where
  sorted : overlaps.Pairwise fun p q => p.1.upper < q.1.lower
  keys : ∀ s ∈ overlaps, s.2.map Prod.fst = joinedFeatures features
  lower_le : ∀ s ∈ overlaps, s.1.lower ≤ s.1.upper
  block_of_mem : ∀ s ∈ overlaps, ∀ p ∈ s.2, ∃ I, (I, p.2) ∈ nodes p.1 ∧ ∀ t ∈ s.1, t ∈ I
  covered : ∀ t, (∀ f ∈ features, ∃ p ∈ nodes f, t ∈ p.1) → ∃ s ∈ overlaps, t ∈ s.1 ∧
    ∀ t', (∀ f ∈ features, ∀ p ∈ nodes f, t ∈ p.1 → t' ∈ p.1) → t' ∈ s.1

theorem jointLookup_nodesPerFeature {c : Cut ℚ} {m : List (F × N)} :
    jointLookup c (nodesPerFeature nodes features) = some m ↔
      m.map Prod.fst = joinedFeatures features ∧
        ∀ p ∈ m, (nodesDict (nodes p.1)).lookup c = some p.2 := by
  rw [jointLookup_eq_some_iff, nodesPerFeature, List.forall₂_map_left_iff]
  induction joinedFeatures features generalizing m with
  | nil => cases m <;> simp
  | cons f fs ih =>
    cases m with
    | nil => simp
    | cons p m =>
      rw [List.forall₂_cons, ih, List.map_cons, List.cons.injEq, List.forall_mem_cons]
      constructor
      · rintro ⟨⟨rfl, hp⟩, hm, hall⟩
        exact ⟨⟨rfl, hm⟩, hp, hall⟩
      · rintro ⟨⟨rfl, hm⟩, hp, hall⟩
        exact ⟨⟨rfl, hp⟩, hm, hall⟩

theorem exists_slices (h : SharedRange dag features range nodes block) :
    ∃ overlaps, getOverlaps (nodesPerFeature nodes features) = .ok overlaps ∧
      Slices nodes features overlaps := by
  have hne : nodesPerFeature nodes features ≠ [] := by
    obtain ⟨f, hf⟩ := List.exists_mem_of_ne_nil _ h.features_ne
    exact List.ne_nil_of_mem (List.mem_map_of_mem (mem_joinedFeatures.2 hf))
  have hcl : ∀ kd ∈ nodesPerFeature nodes features, ClosedKeys kd.2 := by
    intro kd hkd
    obtain ⟨f, hf, rfl⟩ := List.mem_map.1 hkd
    exact closedKeys_nodesDict (h.seq f (mem_joinedFeatures.1 hf))
  obtain ⟨overlaps, hok, hmem, hsorted⟩ := getOverlaps_spec hne hcl
  refine ⟨overlaps, hok, hsorted, ?_, fun s hs => ((hmem s.1 s.2).1 hs).1, ?_, ?_⟩
  · intro s hs
    obtain ⟨hle, hs⟩ := (hmem s.1 s.2).1 hs
    exact (jointLookup_nodesPerFeature.1
      ((hs _).1 (ClosedInterval.before_mem_toInterval.2 ⟨le_rfl, hle⟩))).1
  · intro s hs p hp
    obtain ⟨hle, hs⟩ := (hmem s.1 s.2).1 hs
    have hkeys : p.1 ∈ features := by
      rw [← mem_joinedFeatures, ← (jointLookup_nodesPerFeature.1
        ((hs _).1 (ClosedInterval.before_mem_toInterval.2 ⟨le_rfl, hle⟩))).1]
      exact List.mem_map_of_mem hp
    have hget : ∀ t ∈ s.1, ∃ I, (I, p.2) ∈ nodes p.1 ∧ t ∈ I := fun t ht => by
      obtain ⟨I, hI, hc⟩ := (lookup_nodesDict (h.seq _ hkeys)).1 ((jointLookup_nodesPerFeature.1
        ((hs _).1 (ClosedInterval.before_mem_toInterval.2 ht))).2 p hp)
      exact ⟨I, hI, ClosedInterval.before_mem_toInterval.1 hc⟩
    obtain ⟨I, hI, -⟩ := hget s.1.lower ⟨le_rfl, hle⟩
    refine ⟨I, hI, fun t ht => ?_⟩
    -- the node determines its block
    obtain ⟨I', hI', ht'⟩ := hget t ht
    obtain rfl : I' = I := by
      by_contra hne
      have hpair := (pairwise_of_seq (h.seq _ hkeys)).imp (S := fun p q => p.2 ≠ q.2)
        fun h => h.2
      have : Std.Symm fun p q : ClosedInterval ℚ × N => p.2 ≠ q.2 := ⟨fun _ _ => Ne.symm⟩
      exact hpair.forall hI' hI (fun heq => hne (congrArg Prod.fst heq)) rfl
    exact ht'
  · intro t ht
    have hsome : jointLookup (before t) (nodesPerFeature nodes features) ≠ none := by
      refine jointLookup_ne_none_iff.2 fun kd hkd => ?_
      obtain ⟨f, hf, rfl⟩ := List.mem_map.1 hkd
      obtain ⟨p, hp, hpt⟩ := ht f (mem_joinedFeatures.1 hf)
      rw [Option.ne_none_iff_exists']
      exact ⟨p.2, (lookup_nodesDict (h.seq f (mem_joinedFeatures.1 hf))).2
        ⟨p.1, hp, ClosedInterval.before_mem_toInterval.2 hpt⟩⟩
    obtain ⟨m, hm⟩ := Option.ne_none_iff_exists'.1 hsome
    obtain ⟨J, hJ⟩ := exists_closedInterval_jointLookup hne hcl hm
    have htJ : t ∈ J := ClosedInterval.before_mem_toInterval.1 ((hJ _).2 hm)
    refine ⟨(J, m), (hmem J m).2 ⟨htJ.1.trans htJ.2, hJ⟩, htJ, fun t' ht' => ?_⟩
    refine ClosedInterval.before_mem_toInterval.1 ((hJ _).2 ?_)
    obtain ⟨hkeys, hget⟩ := jointLookup_nodesPerFeature.1 hm
    refine jointLookup_nodesPerFeature.2 ⟨hkeys, fun p hp => ?_⟩
    have hf : p.1 ∈ features := by
      rw [← mem_joinedFeatures, ← hkeys]
      exact List.mem_map_of_mem hp
    obtain ⟨I, hI, hc⟩ := (lookup_nodesDict (h.seq _ hf)).1 (hget p hp)
    exact (lookup_nodesDict (h.seq _ hf)).2 ⟨I, hI, ClosedInterval.before_mem_toInterval.2
      (ht' p.1 hf _ hI (ClosedInterval.before_mem_toInterval.1 hc))⟩

end Slices

/-! ### The frame of a task -/

section Frames

variable {block : N → List (Event α)} {ns l l' : List (ClosedInterval ℚ × N)}
  {I : ClosedInterval ℚ} {n : N}

omit [DecidableEq N] in
theorem isTsSorted_fullFrame (h : BlockSeq (blocksOf block ns)) :
    isTsSorted Event.timestamp (fullFrame block ns) :=
  h.isTsSorted_rangeEvents

/-- The frame of a task, from the nodes around the task's node. -/
def windowFrame (block : N → List (Event α)) (l : List (ClosedInterval ℚ × N)) (n : N) :
    List (Event α) :=
  (l.getLast?.map Prod.snd).elim [] block ++ block n

omit [DecidableEq N] in
theorem blocksOf_append : blocksOf block (l ++ (I, n) :: l') =
    blocksOf block l ++ (I, block n) :: blocksOf block l' := by
  simp [blocksOf]

omit [DecidableEq N] in
theorem windowFrame_eq : windowFrame block l n =
    (blocksOf block l).getLast?.elim [] Prod.snd ++ block n := by
  rw [windowFrame, blocksOf, List.getLast?_map]
  cases l.getLast? <;> rfl

omit [DecidableEq N] in
theorem asOf_fullFrame (h : BlockSeq (blocksOf block (l ++ (I, n) :: l'))) {t : ℚ}
    (ht : t ∈ I) : asOf Event.timestamp (fullFrame block (l ++ (I, n) :: l')) t =
      asOf Event.timestamp (windowFrame block l n) t := by
  rw [blocksOf_append] at h
  rw [fullFrame, blocksOf_append, h.asOf_rangeEvents ht, windowFrame_eq]

omit [DecidableEq N] in
theorem filter_fullFrame (h : BlockSeq (blocksOf block (l ++ (I, n) :: l'))) {P : ℚ → Prop}
    [DecidablePred P] (hP : ∀ t, P t → t ∈ I) :
    (fullFrame block (l ++ (I, n) :: l')).filter (fun e => P e.timestamp) =
      (windowFrame block l n).filter fun e => P e.timestamp := by
  rw [blocksOf_append] at h
  rw [fullFrame, blocksOf_append, h.filter_rangeEvents hP, windowFrame_eq]

omit [DecidableEq N] in
theorem isTsSorted_windowFrame (h : BlockSeq (blocksOf block (l ++ (I, n) :: l'))) :
    isTsSorted Event.timestamp (windowFrame block l n) := by
  refine (isTsSorted_fullFrame h).sublist ?_
  rw [fullFrame, blocksOf_append, BlockSeq.rangeEvents_eq, windowFrame_eq]
  exact (List.sublist_append_left _ _).trans (List.sublist_append_right _ _)

end Frames

/-! ### The rows of a task -/

section Tasks

variable {dag : Dag F N} {features : List F} {range : ClosedInterval ℚ}
  {nodes : F → List (ClosedInterval ℚ × N)} {block : N → List (Event α)} {label : Option F}
  {overlaps : List (ClosedInterval ℚ × List (F × N))}

/-- The frame of a feature in a task: its block in the slice, after the block before it. -/
theorem exists_taskFrame (h : SharedRange dag features range nodes block)
    (hs : Slices nodes features overlaps) {s : ClosedInterval ℚ × List (F × N)}
    (hmem : s ∈ overlaps) {p : F × N} (hp : p ∈ s.2) :
    ∃ I l l', nodes p.1 = l ++ (I, p.2) :: l' ∧ (∀ t ∈ s.1, t ∈ I) ∧
      taskFrame block (getPrevNodes (nodesPerFeature nodes features) s.2) p =
        windowFrame block l p.2 := by
  obtain ⟨I, hI, hsub⟩ := hs.block_of_mem s hmem p hp
  obtain ⟨l, l', hl⟩ := List.append_of_mem hI
  have hkeys := hs.keys s hmem
  have hf : p.1 ∈ joinedFeatures features := hkeys ▸ List.mem_map_of_mem hp
  have hseq := h.seq _ (mem_joinedFeatures.1 hf)
  have hnpf : dictGet (nodesPerFeature nodes features) p.1 = some (nodesDict (nodes p.1)) := by
    refine (dictGet_eq_some_iff ?_).2 (List.mem_map_of_mem hf)
    simpa [nodesPerFeature, Function.comp_def] using nodup_joinedFeatures features
  have hvalues : (nodesDict (nodes p.1)).values = (nodes p.1).map Prod.snd := by
    rw [IntervalDict.values, items_nodesDict hseq, List.map_map]
    rfl
  have hnd := List.pairwise_map.2 ((pairwise_of_seq hseq).imp (S := fun p q => p.2 ≠ q.2)
    fun h => h.2)
  have hprev : prevNode p.2 ((nodes p.1).map Prod.snd) = (l.map Prod.snd).getLast? := by
    rw [hl, List.map_append, List.map_cons] at hnd ⊢
    have hnd : (l.map Prod.snd ++ p.2 :: l'.map Prod.snd).Nodup := hnd
    rw [List.nodup_middle, List.nodup_cons, List.mem_append, not_or] at hnd
    exact prevNode_eq hnd.1.1 hnd.1.2
  have hget : dictGet (getPrevNodes (nodesPerFeature nodes features) s.2) p.1 =
      l.getLast?.map Prod.snd := by
    rw [getPrevNodes, dictGet_filterMap (g := fun p => (dictGet (nodesPerFeature nodes features)
      p.1).bind fun d => prevNode p.2 d.values) (hkeys ▸ nodup_joinedFeatures features) hp, hnpf,
      Option.bind_some, hvalues, hprev, List.getLast?_map]
  exact ⟨I, l, l', hl, hsub, by rw [taskFrame, hget, windowFrame]⟩

/-- The frames that a task joins, by the features. -/
theorem exists_windowFrames (h : SharedRange dag features range nodes block)
    (hs : Slices nodes features overlaps) {s : ClosedInterval ℚ × List (F × N)}
    (hmem : s ∈ overlaps) : ∃ X : F → List (Event α),
      (s.2.map fun p =>
          (p.1, taskFrame block (getPrevNodes (nodesPerFeature nodes features) s.2) p)) =
        ((joinedFeatures features).map fun f => (f, X f)) ∧
      ∀ f ∈ features, ∃ I l l' n, nodes f = l ++ (I, n) :: l' ∧ (∀ t ∈ s.1, t ∈ I) ∧
        X f = windowFrame block l n := by
  set prevNodes := getPrevNodes (nodesPerFeature nodes features) s.2
  have hkeys := hs.keys s hmem
  have hnd : ((s.2.map fun p => (p.1, taskFrame block prevNodes p)).map Prod.fst).Nodup := by
    rw [List.map_map]
    exact hkeys ▸ nodup_joinedFeatures features
  have hget : ∀ p ∈ s.2, dictGet (s.2.map fun p => (p.1, taskFrame block prevNodes p)) p.1 =
      some (taskFrame block prevNodes p) := fun p hp =>
    (dictGet_eq_some_iff hnd).2
      (List.mem_map_of_mem (f := fun p => (p.1, taskFrame block prevNodes p)) hp)
  refine ⟨fun f => (dictGet (s.2.map fun p => (p.1, taskFrame block prevNodes p)) f).getD [],
    ?_, fun f hf => ?_⟩
  · rw [← hkeys, List.map_map]
    exact List.map_congr_left fun p hp => by simp [hget p hp]
  · rw [← mem_joinedFeatures, ← hkeys, List.mem_map] at hf
    obtain ⟨p, hp, rfl⟩ := hf
    obtain ⟨I, l, l', hl, hsub, hframe⟩ := exists_taskFrame h hs hmem hp
    refine ⟨I, l, l', p.2, hl, hsub, ?_⟩
    change (dictGet _ p.1).getD [] = _
    rw [hget p hp, Option.getD_some, hframe]

/-- **A task computes the rows of the sequential join with a timestamp in its slice.** -/
theorem pointInTimeJoinBlock_eq (h : SharedRange dag features range nodes block)
    (hl : ∀ l, label = some l → l ∈ features) (hs : Slices nodes features overlaps)
    {seq : List (JoinedRow α)} (hseq : sequentialJoin nodes block features label = .ok seq)
    {s : ClosedInterval ℚ × List (F × N)} (hmem : s ∈ overlaps) :
    pointInTimeJoinBlock block
        ⟨s.1, s.2, getPrevNodes (nodesPerFeature nodes features) s.2, label⟩ =
      subDfTs JoinedRow.timestamp seq s.1.lower s.1.upper := by
  obtain ⟨X, hconcat, hX⟩ := exists_windowFrames h hs hmem
  obtain ⟨lf, others, horder⟩ := exists_joinOrder h.features_ne label
  have hmemF : ∀ f ∈ lf :: others, f ∈ features := fun f hf =>
    mem_of_mem_joinOrder hl (horder ▸ hf)
  -- both joins have sorted frames, so both are a lookup per label row
  have hsortX : ∀ f ∈ lf :: others, isTsSorted Event.timestamp (X f) := fun f hf => by
    obtain ⟨I, l, l', n, hn, -, hx⟩ := hX f (hmemF f hf)
    exact hx ▸ isTsSorted_windowFrame (hn ▸ h.seq f (hmemF f hf))
  have hsort : ∀ f ∈ lf :: others, isTsSorted Event.timestamp (fullFrame block (nodes f)) :=
    fun f hf => isTsSorted_fullFrame (h.seq f (hmemF f hf))
  rw [sequentialJoin, horder, List.map_cons, mergeAsofMulti_of_sorted (hsort lf List.mem_cons_self)
    (by simpa using fun f hf => hsort f (List.mem_cons_of_mem _ hf))] at hseq
  obtain rfl := Except.ok.inj hseq
  simp only [pointInTimeJoinBlock, hconcat, orderFrames_map hl, horder, List.map_cons]
  simp only [bind, Except.bind]
  rw [mergeAsofMulti_of_sorted (hsortX lf List.mem_cons_self)
    (by simpa using fun f hf => hsortX f (List.mem_cons_of_mem _ hf))]
  suffices hfilter : ((X lf).map (joinRow (others.map X))).filter
      (fun r => s.1.lower ≤ r.timestamp ∧ r.timestamp ≤ s.1.upper) =
      ((fullFrame block (nodes lf)).map (joinRow (others.map fun f =>
        fullFrame block (nodes f)))).filter
      (fun r => s.1.lower ≤ r.timestamp ∧ r.timestamp ≤ s.1.upper) by
    simp only [subDfTs, hfilter]
  have hlabel : (X lf).filter (fun e => s.1.lower ≤ e.timestamp ∧ e.timestamp ≤ s.1.upper) =
      (fullFrame block (nodes lf)).filter
        (fun e => s.1.lower ≤ e.timestamp ∧ e.timestamp ≤ s.1.upper) := by
    obtain ⟨I, l, l', n, hn, hsub, hx⟩ := hX lf (hmemF lf List.mem_cons_self)
    have hseq := hn ▸ h.seq lf (hmemF lf List.mem_cons_self)
    rw [hx, hn]
    exact (filter_fullFrame hseq (P := fun t => s.1.lower ≤ t ∧ t ≤ s.1.upper) hsub).symm
  rw [List.filter_map, List.filter_map]
  refine Eq.trans (congrArg _ hlabel) (List.map_congr_left fun e he => ?_)
  have ht : s.1.lower ≤ e.timestamp ∧ e.timestamp ≤ s.1.upper := by
    simpa using (List.mem_filter.1 he).2
  simp only [joinRow, List.map_map, JoinedRow.mk.injEq, List.cons.injEq, true_and]
  refine List.map_congr_left fun f hf => ?_
  have hf := hmemF f (List.mem_cons_of_mem _ hf)
  obtain ⟨I, l, l', n, hn, hsub, hx⟩ := hX f hf
  have hseq := hn ▸ h.seq f hf
  simp only [Function.comp_apply]
  rw [hx, hn, asOf_fullFrame hseq (hsub _ ht)]

/-! ### The graph of one range -/

/-- The tasks of the slices. -/
def tasksOf (nodes : F → List (ClosedInterval ℚ × N)) (features : List F) (label : Option F)
    (overlaps : List (ClosedInterval ℚ × List (F × N))) :
    List (ClosedInterval ℚ × JoinTask F N) :=
  overlaps.map fun s =>
    (s.1, ⟨s.1, s.2, getPrevNodes (nodesPerFeature nodes features) s.2, label⟩)

omit [DecidableEq F] [DecidableEq N] in
theorem range_lower_le (h : SharedRange dag features range nodes block) :
    range.lower ≤ range.upper := by
  obtain ⟨f, hf⟩ := List.exists_mem_of_ne_nil _ h.features_ne
  obtain ⟨p, hp⟩ := List.exists_mem_of_ne_nil _ (h.nodes_ne f hf)
  obtain ⟨t, ht, -⟩ := h.in_range f hf p hp
  exact ht.1.trans ht.2

/-- The ranges of the features overlap in the shared range. -/
theorem getOverlaps_ranges (h : SharedRange dag features range nodes block) :
    getOverlaps ((joinedFeatures features).map fun f =>
        (f, (IntervalDict.empty (V := List (ClosedInterval ℚ × N))).set range.toInterval
          (nodes f))) =
      .ok [(range, (joinedFeatures features).map fun f => (f, nodes f))] := by
  set ds := (joinedFeatures features).map fun f =>
    (f, (IntervalDict.empty (V := List (ClosedInterval ℚ × N))).set range.toInterval (nodes f))
    with hds
  set m₀ := (joinedFeatures features).map fun f => (f, nodes f) with hm₀
  have hle := range_lower_le h
  have hne : joinedFeatures features ≠ [] := by
    obtain ⟨f, hf⟩ := List.exists_mem_of_ne_nil _ h.features_ne
    exact List.ne_nil_of_mem (mem_joinedFeatures.2 hf)
  have hcl : ∀ kd ∈ ds, ClosedKeys kd.2 := by
    intro kd hkd q hq
    obtain ⟨f, -, rfl⟩ := List.mem_map.1 hkd
    have hitems := IntervalDict.items_ofItems_closed (l := [(range, nodes f)]) (by simpa)
      (List.pairwise_singleton _ _)
    simp only [IntervalDict.ofItems, List.map_cons, List.map_nil, List.foldl_cons,
      List.foldl_nil] at hitems
    rw [hitems, List.mem_singleton] at hq
    exact ⟨range, by rw [hq]⟩
  have hlookup : ∀ c, jointLookup c ds = if c ∈ range.toInterval then some m₀ else none := by
    intro c
    rw [hds, hm₀]
    split_ifs with hc
    · induction joinedFeatures features with
      | nil => rfl
      | cons f fs ih => simp [jointLookup, hc, ih]
    · obtain ⟨f, fs, hfs⟩ := List.exists_cons_of_ne_nil hne
      simp [hfs, jointLookup, hc]
  obtain ⟨res, hok, hmem, hsorted⟩ := getOverlaps_spec (by simpa [hds] using hne) hcl
  rw [hok]
  have hmem₀ : (range, m₀) ∈ res := (hmem _ _).2 ⟨hle, fun c => by simp [hlookup]⟩
  have hall : ∀ p ∈ res, p = (range, m₀) := by
    rintro ⟨J, m⟩ hp
    obtain ⟨hJ, hJm⟩ := (hmem J m).1 hp
    simp only [hlookup] at hJm
    obtain ⟨hmm, hJr⟩ : m = m₀ ∧ ∀ c, c ∈ J.toInterval ↔ c ∈ range.toInterval := by
      have h₀ := (hJm (before J.lower)).1 (ClosedInterval.before_mem_toInterval.2 ⟨le_rfl, hJ⟩)
      split_ifs at h₀
      obtain rfl := Option.some.inj h₀
      exact ⟨rfl, fun c => by rw [hJm]; simp⟩
    rw [hmm, ClosedInterval.toInterval_injective hJ (Interval.ext_mem hJr)]
  cases res with
  | nil => cases hmem₀
  | cons p res =>
    obtain rfl := hall p List.mem_cons_self
    cases res with
    | nil => rfl
    | cons q res =>
      have hlt := (List.pairwise_cons.1 hsorted).1 q List.mem_cons_self
      rw [hall q (by simp)] at hlt
      exact absurd hle (not_le.2 hlt)

/-- **The graph has one range, with a task for every slice.** -/
theorem pointInTimeJoinDag_eq (h : SharedRange dag features range nodes block)
    (hok : getOverlaps (nodesPerFeature nodes features) = .ok overlaps) :
    pointInTimeJoinDag dag features label =
      .ok [(range, tasksOf nodes features label overlaps)] := by
  have hranges : (joinedFeatures features).mapM (featureRanges dag) =
      .ok ((joinedFeatures features).map fun f =>
        (f, (IntervalDict.empty (V := List (ClosedInterval ℚ × N))).set range.toInterval
          (nodes f))) := by
    refine mapM_eq_ok fun f hf => ?_
    rw [featureRanges, h.dag_eq f (mem_joinedFeatures.1 hf)]
    rfl
  have hprune : pruneOverlaps (fun e : ClosedInterval ℚ × N => .ok e.1)
      [(range, (joinedFeatures features).map fun f => (f, nodes f))] =
      .ok [(range, (joinedFeatures features).map fun f => (f, nodes f))] := by
    have hkeys : ((joinedFeatures features).map fun f => (f, nodes f)).mapM
        (pruneKey (fun e : ClosedInterval ℚ × N => .ok e.1) range) =
        .ok (((joinedFeatures features).map fun f => (f, nodes f)).map id) := by
      refine mapM_eq_ok fun kv hkv => pruneKey_of_forall Prod.fst ?_ ?_
      · obtain ⟨f, hf, rfl⟩ := List.mem_map.1 hkv
        exact h.nodes_ne f (mem_joinedFeatures.1 hf)
      · intro e he
        obtain ⟨f, hf, rfl⟩ := List.mem_map.1 hkv
        obtain ⟨t, ht, hte⟩ := h.in_range f (mem_joinedFeatures.1 hf) e he
        refine ⟨rfl, fun hempty => Interval.not_mem_empty (before t) (hempty ▸ ?_)⟩
        exact Interval.mem_inter.2 ⟨ClosedInterval.before_mem_toInterval.2 ht,
          ClosedInterval.before_mem_toInterval.2 hte⟩
    simp only [pruneOverlaps, List.mapM_cons, List.mapM_nil, hkeys, List.map_id]
    rfl
  have htasks : joinTasks ((joinedFeatures features).map fun f => (f, nodes f)) label =
      .ok (tasksOf nodes features label overlaps) := by
    have hnpf : ((joinedFeatures features).map fun f => (f, nodes f)).map
        (fun p => (p.1, nodesDict p.2)) = nodesPerFeature nodes features := by
      rw [List.map_map]
      rfl
    simp only [joinTasks, hnpf, hok]
    rfl
  simp only [pointInTimeJoinDag, hranges, bind, Except.bind, getOverlaps_ranges h, hprune,
    List.mapM_cons, List.mapM_nil, htasks]
  rfl

omit [DecidableEq N] in
theorem exists_sequentialJoin (h : SharedRange dag features range nodes block)
    (hl : ∀ l, label = some l → l ∈ features) :
    ∃ f fs, joinOrder label features = f :: fs ∧ sequentialJoin nodes block features label =
      .ok ((fullFrame block (nodes f)).map
        (joinRow (fs.map fun f => fullFrame block (nodes f)))) := by
  obtain ⟨f, fs, horder⟩ := exists_joinOrder h.features_ne label
  have hsort : ∀ f' ∈ f :: fs, isTsSorted Event.timestamp (fullFrame block (nodes f')) :=
    fun f' hf' => isTsSorted_fullFrame (h.seq f' (mem_of_mem_joinOrder hl (horder ▸ hf')))
  refine ⟨f, fs, horder, ?_⟩
  rw [sequentialJoin, horder, List.map_cons, mergeAsofMulti_of_sorted (hsort f List.mem_cons_self)]
  simpa using fun f' hf' => hsort f' (List.mem_cons_of_mem _ hf')

/-- **No row of the distributed join is wrong.**  The rows of every task are rows of the sequential
join: a label row, and in every other column the last event of that feature in the whole range as
of the label row's time. -/
theorem pointInTimeJoin_sound (h : SharedRange dag features range nodes block)
    (hl : ∀ l, label = some l → l ∈ features) :
    ∃ tasks seq, pointInTimeJoinDag dag features label = .ok [(range, tasks)] ∧
      sequentialJoin nodes block features label = .ok seq ∧
      ∀ T ∈ tasks, ∀ rows, pointInTimeJoinBlock block T.2 = .ok rows →
        (rows = seq.filter fun r => T.1.lower ≤ r.timestamp ∧ r.timestamp ≤ T.1.upper) ∧
        ∀ row ∈ rows, ∃ f fs, joinOrder label features = f :: fs ∧
          ∃ e ∈ fullFrame block (nodes f),
            row = joinRow (fs.map fun f' => fullFrame block (nodes f')) e := by
  obtain ⟨overlaps, hok, hs⟩ := exists_slices h
  obtain ⟨f, fs, horder, hseq⟩ := exists_sequentialJoin h hl
  refine ⟨_, _, pointInTimeJoinDag_eq h hok, hseq, fun T hT rows hrows => ?_⟩
  obtain ⟨s, hmem, rfl⟩ := List.mem_map.1 hT
  rw [pointInTimeJoinBlock_eq h hl hs hseq hmem, subDfTs_eq_ok_iff] at hrows
  refine ⟨hrows.2, fun row hrow => ⟨f, fs, horder, ?_⟩⟩
  rw [hrows.2] at hrow
  obtain ⟨e, he, rfl⟩ := List.mem_map.1 (List.mem_filter.1 hrow).1
  exact ⟨e, he, rfl⟩

theorem pointInTimeJoin_sound_twoDag :
    ∃ tasks seq, pointInTimeJoinDag (twoDag (9 / 2)) [false, true] (some true) =
        .ok [(⟨0, 10⟩, tasks)] ∧
      sequentialJoin (twoNodes (9 / 2)) twoBlocks [false, true] (some true) = .ok seq ∧
      ∀ T ∈ tasks, ∀ rows, pointInTimeJoinBlock twoBlocks T.2 = .ok rows →
        (rows = seq.filter fun r => T.1.lower ≤ r.timestamp ∧ r.timestamp ≤ T.1.upper) ∧
        ∀ row ∈ rows, ∃ f fs, joinOrder (some true) [false, true] = f :: fs ∧
          ∃ e ∈ fullFrame twoBlocks (twoNodes (9 / 2) f),
            row = joinRow (fs.map fun f' => fullFrame twoBlocks (twoNodes (9 / 2) f')) e :=
  pointInTimeJoin_sound (sharedRange_twoDag (by norm_num) (by norm_num)) (by simp)

end Tasks

/-! ### Completeness -/

section Complete

variable {dag : Dag F N} {features : List F} {range : ClosedInterval ℚ}
  {nodes : F → List (ClosedInterval ℚ × N)} {block : N → List (Event α)} {label : Option F}

/-- The times between the latest start of a first block and the earliest end of a last block. -/
def inWindow (nodes : F → List (ClosedInterval ℚ × N)) (features : List F) (t : ℚ) : Bool :=
  features.all fun f =>
    ((nodes f).head?.any fun p => p.1.lower ≤ t) && (nodes f).getLast?.any fun p => t ≤ p.1.upper

/-- All tasks succeed, and their outputs make up the sequential join in the window. -/
def JoinComplete (nodes : F → List (ClosedInterval ℚ × N)) (block : N → List (Event α))
    (features : List F) (tasks : List (ClosedInterval ℚ × JoinTask F N))
    (seq : List (JoinedRow α)) : Prop :=
  ∃ outs, tasks.mapM (fun T => pointInTimeJoinBlock block T.2) = .ok outs ∧
    outs.flatten = seq.filter fun r => inWindow nodes features r.timestamp

/-- The label rows (the rows of the first feature when there is no label). -/
def labelRows (nodes : F → List (ClosedInterval ℚ × N)) (block : N → List (Event α))
    (features : List F) (label : Option F) : List (Event α) :=
  (joinOrder label features).head?.elim [] fun f => fullFrame block (nodes f)

/-- The time is in a block of every feature. -/
def Covered (nodes : F → List (ClosedInterval ℚ × N)) (features : List F) (t : ℚ) : Prop :=
  ∀ f ∈ features, ∃ p ∈ nodes f, t ∈ p.1

/-- Wherever every feature has a block, there is a label row in the same blocks. -/
def SlicesLabelled (nodes : F → List (ClosedInterval ℚ × N)) (block : N → List (Event α))
    (features : List F) (label : Option F) : Prop :=
  ∀ t, Covered nodes features t → ∃ e ∈ labelRows nodes block features label,
    ∀ f ∈ features, ∀ p ∈ nodes f, t ∈ p.1 → e.timestamp ∈ p.1

/-- Every label row in the window lies in a block of every feature. -/
def LabelsCovered (nodes : F → List (ClosedInterval ℚ × N)) (block : N → List (Event α))
    (features : List F) (label : Option F) : Prop :=
  ∀ e ∈ labelRows nodes block features label, inWindow nodes features e.timestamp →
    Covered nodes features e.timestamp

omit [DecidableEq F] [DecidableEq N] in
theorem inWindow_of_covered (h : SharedRange dag features range nodes block) {t : ℚ}
    (ht : Covered nodes features t) : inWindow nodes features t = true := by
  refine List.all_eq_true.2 fun f hf => ?_
  obtain ⟨p, hp, hpt⟩ := ht f hf
  have hap := List.pairwise_map.1 (h.seq f hf).apart
  have hle : ∀ q ∈ nodes f, q.1.lower ≤ q.1.upper := fun q hq =>
    lower_le_upper_of_seq (h.seq f hf) hq
  obtain ⟨a, l, hl⟩ := List.exists_cons_of_ne_nil (h.nodes_ne f hf)
  rw [Bool.and_eq_true]
  constructor
  · rw [hl] at hp hap hle ⊢
    rw [List.head?_cons, Option.any_some, decide_eq_true_eq]
    rcases List.mem_cons.1 hp with rfl | hp
    · exact hpt.1
    · exact (hle a List.mem_cons_self).trans
        (((List.pairwise_cons.1 hap).1 p hp).le.trans hpt.1)
  · clear hl
    rcases (nodes f).eq_nil_or_concat with hnil | ⟨l', b, hl'⟩
    · rw [hnil] at hp; cases hp
    · rw [List.concat_eq_append] at hl'
      rw [hl'] at hp hap hle ⊢
      rw [List.getLast?_append, List.getLast?_singleton, Option.some_or, Option.any_some,
        decide_eq_true_eq]
      rcases List.mem_append.1 hp with hp | hp
      · exact hpt.2.trans (((List.pairwise_append.1 hap).2.2 p hp b List.mem_cons_self).le.trans
          (hle b (by simp)))
      · obtain rfl := List.mem_singleton.1 hp
        exact hpt.2

omit [DecidableEq N] in
theorem covered_iff_exists_slice {overlaps : List (ClosedInterval ℚ × List (F × N))}
    (hs : Slices nodes features overlaps) {t : ℚ} :
    Covered nodes features t ↔ ∃ s ∈ overlaps, t ∈ s.1 := by
  constructor
  · intro ht
    obtain ⟨s, hmem, hts, -⟩ := hs.covered t ht
    exact ⟨s, hmem, hts⟩
  · rintro ⟨s, hmem, hts⟩ f hf
    rw [← mem_joinedFeatures, ← hs.keys s hmem] at hf
    obtain ⟨p, hp, rfl⟩ := List.mem_map.1 hf
    obtain ⟨I, hI, hsub⟩ := hs.block_of_mem s hmem p hp
    exact ⟨_, hI, hsub t hts⟩

omit [DecidableEq N] in
/-- The slices are all labelled exactly when no task's selection is empty. -/
theorem slicesLabelled_iff (h : SharedRange dag features range nodes block)
    {overlaps : List (ClosedInterval ℚ × List (F × N))} (hs : Slices nodes features overlaps) :
    SlicesLabelled nodes block features label ↔
      ∀ s ∈ overlaps, ∃ e ∈ labelRows nodes block features label, e.timestamp ∈ s.1 := by
  have hsub : ∀ s ∈ overlaps, ∀ f ∈ features, ∀ p ∈ nodes f, ∀ t ∈ s.1, t ∈ p.1 →
      ∀ t' ∈ s.1, t' ∈ p.1 := by
    intro s hmem f hf p hp t ht htp t' ht'
    rw [← mem_joinedFeatures, ← hs.keys s hmem] at hf
    obtain ⟨q, hq, rfl⟩ := List.mem_map.1 hf
    obtain ⟨I, hI, hIs⟩ := hs.block_of_mem s hmem q hq
    have hf : q.1 ∈ features := by
      rw [← mem_joinedFeatures, ← hs.keys s hmem]
      exact List.mem_map_of_mem hq
    -- both blocks contain `t`
    have hapart := (pairwise_of_seq (h.seq _ hf)).imp fun hpq => hpq.1
    have hpI : p = (I, q.2) := ClosedInterval.eq_of_mem_of_mem hapart hp hI htp (hIs t ht)
    rw [hpI]
    exact hIs t' ht'
  constructor
  · intro hlab s hmem
    have hle := hs.lower_le s hmem
    have hlow : s.1.lower ∈ s.1 := ⟨le_rfl, hle⟩
    have hcov := (covered_iff_exists_slice hs).2 ⟨s, hmem, hlow⟩
    obtain ⟨e, he, hep⟩ := hlab _ hcov
    obtain ⟨s', hmem', hlow', hall⟩ := hs.covered _ hcov
    obtain rfl : s' = s := ClosedInterval.eq_of_mem_of_mem hs.sorted hmem' hmem hlow' hlow
    exact ⟨e, he, hall _ hep⟩
  · intro hall t ht
    obtain ⟨s, hmem, hts⟩ := (covered_iff_exists_slice hs).1 ht
    obtain ⟨e, he, hes⟩ := hall s hmem
    exact ⟨e, he, fun f hf p hp htp => hsub s hmem f hf p hp t hts htp _ hes⟩

omit [DecidableEq F] [DecidableEq N] in
/-- The rows of a sequential join have the timestamps of its first frame. -/
theorem exists_joinRow_iff {frame : List (Event α)} {frames : List (List (Event α))}
    {P : ℚ → Prop} :
    (∃ r ∈ frame.map (joinRow frames), P r.timestamp) ↔ ∃ e ∈ frame, P e.timestamp := by
  simp [joinRow]

/-- The tasks all return exactly when every slice has a label row, and then they return the rows
of their slices. -/
theorem mapM_tasksOf_eq_ok_iff (h : SharedRange dag features range nodes block)
    (hl : ∀ l, label = some l → l ∈ features) {overlaps : List (ClosedInterval ℚ × List (F × N))}
    (hs : Slices nodes features overlaps) {seq : List (JoinedRow α)}
    (hseq : sequentialJoin nodes block features label = .ok seq)
    (hexists : ∀ P : ℚ → Prop, (∃ r ∈ seq, P r.timestamp) ↔
      ∃ e ∈ labelRows nodes block features label, P e.timestamp)
    {outs : List (List (JoinedRow α))} :
    (tasksOf nodes features label overlaps).mapM (fun T => pointInTimeJoinBlock block T.2) =
        .ok outs ↔
      (∀ s ∈ overlaps, ∃ e ∈ labelRows nodes block features label, e.timestamp ∈ s.1) ∧
        outs = (overlaps.map Prod.fst).map fun I =>
          seq.filter fun r => I.lower ≤ r.timestamp ∧ r.timestamp ≤ I.upper := by
  rw [tasksOf, List.mapM_map, List.map_map]
  refine mapM_eq_ok_iff_of fun s hmem rows => ?_
  rw [Function.comp_apply, pointInTimeJoinBlock_eq h hl hs hseq hmem, subDfTs_eq_ok_iff]
  refine and_congr_left fun hrows => ?_
  rw [hrows, Ne, List.filter_eq_nil_iff]
  simp only [decide_eq_true_eq, not_forall, not_not, exists_prop]
  exact hexists fun t => t ∈ s.1

/-- **The distributed join is complete exactly when every slice has a label row and no label row
of the window lies in a gap between two blocks of a feature.** -/
theorem pointInTimeJoin_complete_iff (h : SharedRange dag features range nodes block)
    (hl : ∀ l, label = some l → l ∈ features) :
    ∃ tasks seq, pointInTimeJoinDag dag features label = .ok [(range, tasks)] ∧
      (tasks.Pairwise fun T T' => T.1.upper < T'.1.lower) ∧
      sequentialJoin nodes block features label = .ok seq ∧
      (JoinComplete nodes block features tasks seq ↔
        SlicesLabelled nodes block features label ∧
          LabelsCovered nodes block features label) := by
  obtain ⟨overlaps, hok, hs⟩ := exists_slices h
  obtain ⟨f, fs, horder, hseq⟩ := exists_sequentialJoin h hl
  refine ⟨_, _, pointInTimeJoinDag_eq h hok, List.pairwise_map.2 hs.sorted, hseq, ?_⟩
  have hlabel : labelRows nodes block features label = fullFrame block (nodes f) := by
    rw [labelRows, horder]
    rfl
  set seq := (fullFrame block (nodes f)).map (joinRow (fs.map fun f => fullFrame block (nodes f)))
    with hseqdef
  have hsorted : seq.Pairwise fun r r' => r.timestamp ≤ r'.timestamp := by
    refine List.pairwise_map.2 (isTsSorted_fullFrame (h.seq f ?_))
    exact mem_of_mem_joinOrder hl (horder ▸ List.mem_cons_self)
  have hexists : ∀ P : ℚ → Prop, (∃ r ∈ seq, P r.timestamp) ↔
      ∃ e ∈ labelRows nodes block features label, P e.timestamp := by
    intro P
    rw [hlabel, hseqdef]
    exact exists_joinRow_iff
  have hflatten := flatten_filter_intervals hsorted (List.pairwise_map.2 hs.sorted)
  have hcov : ∀ t, (∃ I ∈ overlaps.map Prod.fst, I.lower ≤ t ∧ t ≤ I.upper) ↔
      Covered nodes features t := fun t => by
    rw [covered_iff_exists_slice hs]
    simp [ClosedInterval.mem_def]
  rw [slicesLabelled_iff h hs]
  constructor
  · rintro ⟨outs, hmapM, hall⟩
    obtain ⟨hlab, rfl⟩ := (mapM_tasksOf_eq_ok_iff h hl hs hseq hexists).1 hmapM
    refine ⟨hlab, fun e he hwin => ?_⟩
    rw [hflatten] at hall
    -- a row in the window is selected by a slice
    obtain ⟨r, hr, hre⟩ := (hexists fun t => t = e.timestamp).2 ⟨e, he, rfl⟩
    have hmem : r ∈ seq.filter fun r => inWindow nodes features r.timestamp :=
      List.mem_filter.2 ⟨hr, by rw [hre]; exact hwin⟩
    rw [← hall, List.mem_filter, decide_eq_true_eq, hcov, hre] at hmem
    exact hmem.2
  · rintro ⟨hlab, hcovered⟩
    refine ⟨_, (mapM_tasksOf_eq_ok_iff h hl hs hseq hexists).2 ⟨hlab, rfl⟩, ?_⟩
    rw [hflatten]
    refine List.filter_congr fun r hr => ?_
    rw [Bool.eq_iff_iff, decide_eq_true_eq, hcov]
    refine ⟨inWindow_of_covered h, fun hwin => ?_⟩
    obtain ⟨e, he, hre⟩ := (hexists fun t => t = r.timestamp).1 ⟨r, hr, rfl⟩
    exact hre ▸ hcovered e he (hre ▸ hwin)

/-- With the second block from 4.1 on, the two slices are labelled and the rows covered. -/
theorem joinComplete_twoDag :
    ∃ tasks seq, pointInTimeJoinDag (twoDag (41 / 10)) [false, true] (some true) =
        .ok [(⟨0, 10⟩, tasks)] ∧
      sequentialJoin (twoNodes (41 / 10)) twoBlocks [false, true] (some true) = .ok seq ∧
      JoinComplete (twoNodes (41 / 10)) twoBlocks [false, true] tasks seq := by
  have h : SharedRange (twoDag (41 / 10)) [false, true] ⟨0, 10⟩ (twoNodes (41 / 10)) twoBlocks :=
    sharedRange_twoDag (by norm_num) (by norm_num)
  have hl : ∀ l, some true = some l → l ∈ [false, true] := by simp
  obtain ⟨tasks, seq, hdag, -, hseq, hiff⟩ := pointInTimeJoin_complete_iff h hl
  refine ⟨tasks, seq, hdag, hseq, hiff.2 ⟨fun t ht => ?_, fun e he _ => ?_⟩⟩
  · obtain ⟨p, hp, hpt⟩ := ht false (by simp)
    rcases List.mem_pair.1 hp with rfl | rfl
    · refine ⟨⟨2, 20⟩, by decide +kernel, fun f _ q hq htq => ?_⟩
      cases f with
      | true =>
        obtain rfl := List.mem_singleton.1 hq
        decide +kernel
      | false =>
        rcases List.mem_pair.1 hq with rfl | rfl
        · decide +kernel
        · exact absurd (htq.1.trans hpt.2) (by norm_num)
    · refine ⟨⟨6, 60⟩, by decide +kernel, fun f _ q hq htq => ?_⟩
      cases f with
      | true =>
        obtain rfl := List.mem_singleton.1 hq
        decide +kernel
      | false =>
        rcases List.mem_pair.1 hq with rfl | rfl
        · exact absurd (hpt.1.trans htq.2) (by norm_num)
        · decide +kernel
  · have hall : ∀ e ∈ labelRows (twoNodes (41 / 10)) twoBlocks [false, true] (some true),
        ∀ f ∈ [false, true], ∃ p ∈ twoNodes (41 / 10) f, e.timestamp ∈ p.1 := by decide +kernel
    exact hall e he

/-- With the second block from 4.5 on, the label row at 4.2 is lost in the gap of half a second. -/
theorem not_joinComplete_twoDag :
    SharedRange (twoDag (9 / 2)) [false, true] ⟨0, 10⟩ (twoNodes (9 / 2)) twoBlocks ∧
      (∀ f, (twoNodes (9 / 2) f).Pairwise fun p q => q.1.lower - p.1.upper ≤ 1) ∧
      ¬ ∃ tasks seq, pointInTimeJoinDag (twoDag (9 / 2)) [false, true] (some true) =
          .ok [(⟨0, 10⟩, tasks)] ∧
        sequentialJoin (twoNodes (9 / 2)) twoBlocks [false, true] (some true) = .ok seq ∧
        JoinComplete (twoNodes (9 / 2)) twoBlocks [false, true] tasks seq := by
  have h : SharedRange (twoDag (9 / 2)) [false, true] ⟨0, 10⟩ (twoNodes (9 / 2)) twoBlocks :=
    sharedRange_twoDag (by norm_num) (by norm_num)
  refine ⟨h, by decide +kernel, ?_⟩
  rintro ⟨tasks, seq, hdag, hseq, outs, hmapM, hall⟩
  have hok : getOverlaps (nodesPerFeature (twoNodes (9 / 2)) [false, true]) =
      .ok [(⟨0, 4⟩, [(false, 1), (true, 0)]), (⟨9 / 2, 10⟩, [(false, 2), (true, 0)])] := by
    decide +kernel
  have heq := Except.ok.inj ((pointInTimeJoinDag_eq h hok).symm.trans hdag)
  obtain rfl := (Prod.mk.inj (List.cons.inj heq).1).2
  have houts : (tasksOf (twoNodes (9 / 2)) [false, true] (some true)
      [(⟨0, 4⟩, [(false, 1), (true, 0)]), (⟨9 / 2, 10⟩, [(false, 2), (true, 0)])]).mapM
        (fun T => pointInTimeJoinBlock twoBlocks T.2) =
      .ok [[⟨2, [some 20, some 10]⟩], [⟨6, [some 60, some 50]⟩]] := by decide +kernel
  obtain rfl := Except.ok.inj (houts.symm.trans hmapM)
  have hrows : sequentialJoin (twoNodes (9 / 2)) twoBlocks [false, true] (some true) =
      .ok [⟨2, [some 20, some 10]⟩, ⟨21 / 5, [some 42, some 40]⟩, ⟨6, [some 60, some 50]⟩] := by
    decide +kernel
  obtain rfl := Except.ok.inj (hrows.symm.trans hseq)
  revert hall
  decide +kernel

end Complete

end Svoe
