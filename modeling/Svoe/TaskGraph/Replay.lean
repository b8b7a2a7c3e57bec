import Svoe.TaskGraph.BuilderInv
import Svoe.TaskGraph.FeaturesMeta

/-!
# Building a graph again

A graph that has been built without stored blocks is built again with some.  If every block finds
its own row among the stored ones, the build goes through the same states, and only the calls of the
blocks with a row are others.

* `replay_buildFeatureSetTaskGraph` : the second build follows the first.
* `loadsStored_buildFeatureSetTaskGraph` : what is loaded has been found among the stored blocks.
-/

namespace Svoe

open Portion

variable {κ ρ : Type} [DecidableEq κ]

/-! ### The build with stored blocks -/

/-- A call of `calculate_feature`. -/
def TaskCall.isCalculation : TaskCall κ → Bool
  | .calculateFeature .. => true
  | _ => false

/-- The row of a block, among those of the features. -/
def ownRow (features : List κ) (table : List (FeatureBlockMetadata κ))
    (c : Context κ (ClosedInterval ℚ)) : Option (FeatureBlockMetadata κ) :=
  table.find? fun r => r.key ∈ features ∧ r.context = c

/-- The task that loads the block's own row instead of calculating the block, if there is one. -/
def Task.loadOwn (features : List κ) (table : List (FeatureBlockMetadata κ)) (task : Task κ) :
    Task κ :=
  match ownRow features table task.context with
  | some r => if task.call.isCalculation then { task with call := .loadIfNeeded r.path } else task
  | none => task

/-- The state with every block loaded that has a row. -/
def GraphState.loadOwn (features : List κ) (table : List (FeatureBlockMetadata κ))
    (s : GraphState κ ρ) : GraphState κ ρ :=
  { s with bound := s.bound.map (Task.loadOwn features table) }

/-- The input with these stored blocks. -/
def BuilderInput.withStored (input : BuilderInput κ)
    (stored : κ → Option (List (ClosedInterval ℚ × String))) : BuilderInput κ :=
  { input with storedFeatureBlocksMeta := stored }

section Replay

variable {input : BuilderInput κ} {stored : κ → Option (List (ClosedInterval ℚ × String))}
  {features : List κ} {table : List (FeatureBlockMetadata κ)} {key : κ} {J : ClosedInterval ℚ}
  {s s' : GraphState κ ρ} {p p' : RangeNodes × GraphState κ ρ} {task : Task κ}

/-- The block finds its own row, if it has one. -/
def FindsOwn (stored : κ → Option (List (ClosedInterval ℚ × String))) (features : List κ)
    (table : List (FeatureBlockMetadata κ)) (c : Context κ (ClosedInterval ℚ)) : Prop :=
  match ownRow features table c with
  | some r => ∃ l, stored c.featureKey = some l ∧ storedPath l c.interval = .ok (some r.path)
  | none => stored c.featureKey = none

/-- All calculated blocks find their own rows. -/
def GraphState.FindsOwn (stored : κ → Option (List (ClosedInterval ℚ × String)))
    (features : List κ) (table : List (FeatureBlockMetadata κ)) (s : GraphState κ ρ) : Prop :=
  ∀ task ∈ s.bound, task.call.isCalculation → Svoe.FindsOwn stored features table task.context

@[simp] theorem Task.context_loadOwn (task : Task κ) :
    (task.loadOwn features table).context = task.context := by
  unfold loadOwn
  split
  · split_ifs <;> rfl
  · rfl

theorem Task.loadOwn_of_not_isCalculation (h : task.call.isCalculation = false) :
    task.loadOwn features table = task := by
  unfold loadOwn
  split
  · rw [h, if_neg Bool.false_ne_true]
  · rfl

variable (features table) in
theorem bindAndCache_loadOwn (s : GraphState κ ρ) (task : Task κ) :
    bindAndCache (s.loadOwn features table) (task.loadOwn features table) =
      ((bindAndCache s task).1, (bindAndCache s task).2.loadOwn features table) := by
  simp [bindAndCache, GraphState.loadOwn]

theorem GraphState.FindsOwn.of_bindAndCache
    (h : (bindAndCache s task).2.FindsOwn stored features table) :
    s.FindsOwn stored features table ∧
      (task.call.isCalculation → Svoe.FindsOwn stored features table task.context) :=
  ⟨fun t ht => h t (List.mem_append_left _ ht),
    fun hcalc => h task (List.mem_append_right _ (List.mem_singleton_self task)) hcalc⟩

/-- A loop that another one follows, on the states behind `φ`, as long as the end is good. -/
theorem foldlM_replay.{u} {ε : Type*} {α : Type*} {σ : Type u} {f g : σ → α → Except ε σ}
    {φ : σ → σ} {G : σ → Prop}
    (hstep : ∀ s a s', f s a = .ok s' → G s' → G s ∧ g (φ s) a = .ok (φ s'))
    {l : List α} {s s' : σ} (h : l.foldlM f s = .ok s') (hG : G s') :
    G s ∧ l.foldlM g (φ s) = .ok (φ s') := by
  induction l generalizing s with
  | nil =>
    obtain rfl := Except.ok.inj h
    exact ⟨hG, rfl⟩
  | cons a l ih =>
    rw [List.foldlM_cons, bind_eq_ok_iff] at h
    obtain ⟨s₁, hs₁, h⟩ := h
    obtain ⟨hG₁, hrest⟩ := ih h
    obtain ⟨hG₀, hfirst⟩ := hstep s a s₁ hs₁ hG₁
    exact ⟨hG₀, by rw [List.foldlM_cons, hfirst]; exact hrest⟩

/-- The call of a block that finds its own row. -/
theorem featureCall_of_findsOwn {I : ClosedInterval ℚ} {depNodes : List (κ × List ℕ)}
    {call : TaskCall κ}
    (hcall : featureCall (input.withStored fun _ => none) key I depNodes = .ok call)
    (hfinds : call.isCalculation → FindsOwn stored features table ⟨key, I⟩) :
    featureCall (input.withStored stored) key I depNodes =
      .ok ((⟨call, ⟨key, I⟩⟩ : Task κ).loadOwn features table).call := by
  obtain rfl := Except.ok.inj hcall
  have hown := hfinds rfl
  unfold FindsOwn at hown
  unfold featureCall Task.loadOwn
  cases hrow : ownRow features table ⟨key, I⟩ with
  | none =>
    rw [hrow] at hown
    rw [show (input.withStored stored).storedFeatureBlocksMeta key = none from hown]
    rfl
  | some r =>
    rw [hrow] at hown
    obtain ⟨l, hl, hpath⟩ := hown
    rw [show (input.withStored stored).storedFeatureBlocksMeta key = some l from hl]
    show Except.map _ (storedPath l I) = _
    rw [hpath]
    rfl

theorem replay_featureBlock {q : ClosedInterval ℚ × List (κ × List BlockMeta)}
    (h : featureBlock (input.withStored fun _ => none) key J p q = .ok p')
    (hown : p'.2.FindsOwn stored features table) :
    p.2.FindsOwn stored features table ∧
      featureBlock (input.withStored stored) key J (p.1, p.2.loadOwn features table) q =
        .ok (p'.1, p'.2.loadOwn features table) := by
  simp only [featureBlock, bind_eq_ok_iff] at h
  obtain ⟨ls, hls, call, hcall, h⟩ := h
  obtain rfl := Except.ok.inj h
  obtain ⟨hs, hcalc⟩ := hown.of_bindAndCache
  refine ⟨hs, ?_⟩
  have hlookups : depLookups
      ({ p.2.loadOwn features table with dag := (p.2.loadOwn features table).dag.ensure key } :
        GraphState κ ρ) J q.2 = .ok ls := by
    rw [← hls]
    unfold depLookups depLookup
    simp only [GraphState.loadOwn, List.length_map]
  simp only [featureBlock, bind_eq_ok_iff]
  refine ⟨ls, hlookups, _, featureCall_of_findsOwn hcall hcalc, ?_⟩
  have htask : (⟨((⟨call, ⟨key, q.1⟩⟩ : Task κ).loadOwn features table).call, ⟨key, q.1⟩⟩ :
      Task κ) = (⟨call, ⟨key, q.1⟩⟩ : Task κ).loadOwn features table :=
    congrArg (Task.mk _) (Task.context_loadOwn (⟨call, ⟨key, q.1⟩⟩ : Task κ)).symm
  rw [htask]
  have hbind := bindAndCache_loadOwn features table
    ({ p.2 with dag := p.2.dag.ensure key, lookups := p.2.lookups ++ ls.flatMap Prod.snd } :
      GraphState κ ρ) ⟨call, ⟨key, q.1⟩⟩
  exact congrArg (fun b => Except.ok (dictSet p.1 q.1 b.1, b.2)) hbind

theorem replay_sourceBlock {isSynthetic : Bool} {m : BlockMeta}
    (h : sourceBlock key isSynthetic p m = .ok p')
    (hown : p'.2.FindsOwn stored features table) :
    p.2.FindsOwn stored features table ∧
      sourceBlock key isSynthetic (p.1, p.2.loadOwn features table) m =
        .ok (p'.1, p'.2.loadOwn features table) := by
  simp only [sourceBlock, bind_eq_ok_iff] at h ⊢
  obtain ⟨I, hI, h⟩ := h
  obtain rfl := Except.ok.inj h
  refine ⟨hown.of_bindAndCache.1, I, hI, ?_⟩
  set task : Task κ :=
    ⟨if isSynthetic then .genSynthEvents I else .loadAndPreprocess m.path, ⟨key, I⟩⟩ with htask
  have hsource : task.call.isCalculation = false := by
    rw [htask]
    cases isSynthetic <;> rfl
  have hbind := bindAndCache_loadOwn features table p.2 task
  rw [Task.loadOwn_of_not_isCalculation hsource] at hbind
  exact congrArg (fun b => Except.ok (dictSet p.1 I b.1, b.2)) hbind

theorem replay_sourceRange {isSynthetic : Bool} {range : List BlockMeta}
    (h : sourceRange key isSynthetic s range = .ok s')
    (hown : s'.FindsOwn stored features table) :
    s.FindsOwn stored features table ∧
      sourceRange key isSynthetic (s.loadOwn features table) range =
        .ok (s'.loadOwn features table) := by
  simp only [sourceRange, bind_eq_ok_iff] at h ⊢
  obtain ⟨I, hI, p, hp, dag, hdag, h⟩ := h
  obtain rfl := Except.ok.inj h
  obtain ⟨hs, hreplay⟩ := foldlM_replay
    (φ := fun p : RangeNodes × GraphState κ ρ => (p.1, p.2.loadOwn features table))
    (G := fun p => p.2.FindsOwn stored features table)
    (fun _ _ _ h hown => replay_sourceBlock h hown) hp hown
  exact ⟨hs, I, hI, _, hreplay, dag, hdag, rfl⟩

theorem replay_fileBlocks {g : List (ClosedInterval ℚ × List (κ × List BlockMeta))}
    (h : fileBlocks (input.withStored fun _ => none) key s (J, g) = .ok s')
    (hown : s'.FindsOwn stored features table) :
    s.FindsOwn stored features table ∧
      fileBlocks (input.withStored stored) key (s.loadOwn features table) (J, g) =
        .ok (s'.loadOwn features table) := by
  simp only [fileBlocks, bind_eq_ok_iff] at h ⊢
  obtain ⟨p, hp, dag, hdag, h⟩ := h
  obtain rfl := Except.ok.inj h
  obtain ⟨hs, hreplay⟩ := foldlM_replay
    (φ := fun p : RangeNodes × GraphState κ ρ => (p.1, p.2.loadOwn features table))
    (G := fun p => p.2.FindsOwn stored features table)
    (fun _ _ _ h hown => replay_featureBlock h hown) hp hown
  exact ⟨hs, _, hreplay, dag, hdag, rfl⟩

theorem replay_treeTraversalCallback {t : FeatureTree κ}
    (h : treeTraversalCallback (input.withStored fun _ => none) s t = .ok s')
    (hown : s'.FindsOwn stored features table) :
    s.FindsOwn stored features table ∧
      treeTraversalCallback (input.withStored stored) (s.loadOwn features table) t =
        .ok (s'.loadOwn features table) := by
  unfold treeTraversalCallback at h ⊢
  cases hdef : t.value.definition with
  | dataSource isSynthetic =>
    rw [hdef] at h
    dsimp only at h ⊢
    cases hranges : input.dataRangesMeta t.value.key with
    | none =>
      rw [show (input.withStored fun _ => none).dataRangesMeta t.value.key = none from hranges] at h
      cases h
    | some ranges =>
      rw [show (input.withStored fun _ => none).dataRangesMeta t.value.key = some ranges
        from hranges] at h
      rw [show (input.withStored stored).dataRangesMeta t.value.key = some ranges from hranges]
      exact foldlM_replay (fun _ _ _ h hown => replay_sourceRange h hown) h hown
  | derived grouping =>
    rw [hdef] at h
    obtain ⟨overlaps, hoverlaps, h⟩ := bind_eq_ok_iff.1 h
    have hreplay := foldlM_replay (φ := GraphState.loadOwn features table)
      (G := GraphState.FindsOwn stored features table)
      (g := fun s p => groupOverlaps (input.withStored stored) grouping
        (t.children.map RoseTree.value) p.2 >>= fun groups =>
          fileBlocks (input.withStored stored) t.value.key s (p.1, groups))
      (fun s p s' h hown => by
        obtain ⟨groups, hgroups, h⟩ := bind_eq_ok_iff.1 h
        obtain ⟨hs, hreplay⟩ := replay_fileBlocks h hown
        exact ⟨hs, bind_eq_ok_iff.2 ⟨groups, hgroups, hreplay⟩⟩) h hown
    exact ⟨hreplay.1, bind_eq_ok_iff.2 ⟨overlaps, hoverlaps, hreplay.2⟩⟩

theorem replay_buildFeatureTaskGraph {t : FeatureTree κ}
    (h : buildFeatureTaskGraph (input.withStored fun _ => none) s t = .ok s')
    (hown : s'.FindsOwn stored features table) :
    s.FindsOwn stored features table ∧
      buildFeatureTaskGraph (input.withStored stored) (s.loadOwn features table) t =
        .ok (s'.loadOwn features table) := by
  have hreplay := foldlM_replay (φ := GraphState.loadOwn features table)
    (G := GraphState.FindsOwn stored features table)
    (fun _ _ _ h hown => replay_treeTraversalCallback h hown) h hown
  exact ⟨hreplay.1, hreplay.2⟩

/-- **A build with stored blocks** goes through the same states as the build without, with the
blocks loaded that have a row, if every block finds its own row and no other. -/
theorem replay_buildFeatureSetTaskGraph {trees : List (FeatureTree κ)}
    {cache : CacheTable κ (ClosedInterval ℚ) ρ}
    (h : buildFeatureSetTaskGraph (input.withStored fun _ => none) trees cache = .ok s)
    (hown : s.FindsOwn stored features table) :
    buildFeatureSetTaskGraph (input.withStored stored) trees cache =
      .ok (s.loadOwn features table) :=
  (foldlM_replay (φ := GraphState.loadOwn features table)
    (G := GraphState.FindsOwn stored features table)
    (fun _ _ _ h hown => replay_buildFeatureTaskGraph h hown) h hown).2

/-! ### What is bound -/

/-- Every block that is loaded as a feature's block is the only stored one that almost has the
interval. -/
def GraphState.LoadsStored (stored : κ → Option (List (ClosedInterval ℚ × String)))
    (s : GraphState κ ρ) : Prop :=
  ∀ task ∈ s.bound, ∀ path, task.call = .loadIfNeeded path →
    ∃ l, stored task.context.featureKey = some l ∧
      storedPath l task.context.interval = .ok (some path)

theorem GraphState.LoadsStored.bindAndCache (h : s.LoadsStored stored)
    (htask : ∀ path, task.call = .loadIfNeeded path →
      ∃ l, stored task.context.featureKey = some l ∧
        storedPath l task.context.interval = .ok (some path)) :
    (bindAndCache s task).2.LoadsStored stored := by
  intro t ht
  rcases List.mem_append.1 ht with ht | ht
  · exact h t ht
  · obtain rfl := List.mem_singleton.1 ht
    exact htask

theorem loadsStored_sourceRange {isSynthetic : Bool} {range : List BlockMeta}
    (hs : s.LoadsStored stored) (h : sourceRange key isSynthetic s range = .ok s') :
    s'.LoadsStored stored := by
  simp only [sourceRange, bind_eq_ok_iff] at h
  obtain ⟨I, -, p, hp, dag, -, h⟩ := h
  obtain rfl := Except.ok.inj h
  refine foldlM_invariant (P := fun p : RangeNodes × GraphState κ ρ => p.2.LoadsStored stored)
    (fun p m p' _ hp h => ?_) hs hp
  simp only [sourceBlock, bind_eq_ok_iff] at h
  obtain ⟨I, -, h⟩ := h
  obtain rfl := Except.ok.inj h
  refine GraphState.LoadsStored.bindAndCache hp fun path hcall => ?_
  cases isSynthetic <;> cases hcall

theorem featureCall_loadIfNeeded {I : ClosedInterval ℚ} {depNodes : List (κ × List ℕ)}
    {path : String}
    (h : featureCall (input.withStored stored) key I depNodes = .ok (.loadIfNeeded path)) :
    ∃ l, stored key = some l ∧ storedPath l I = .ok (some path) := by
  unfold featureCall at h
  cases hl : stored key with
  | none =>
    rw [show (input.withStored stored).storedFeatureBlocksMeta key = none from hl] at h
    cases h
  | some l =>
    rw [show (input.withStored stored).storedFeatureBlocksMeta key = some l from hl] at h
    obtain ⟨found, hfound, hcall⟩ := map_eq_ok_iff.1 h
    cases found with
    | none => cases hcall
    | some path' =>
      obtain rfl := TaskCall.loadIfNeeded.inj hcall
      exact ⟨l, rfl, hfound⟩

theorem loadsStored_fileBlocks {g : List (ClosedInterval ℚ × List (κ × List BlockMeta))}
    (hs : s.LoadsStored stored)
    (h : fileBlocks (input.withStored stored) key s (J, g) = .ok s') : s'.LoadsStored stored := by
  simp only [fileBlocks, bind_eq_ok_iff] at h
  obtain ⟨p, hp, dag, -, h⟩ := h
  obtain rfl := Except.ok.inj h
  refine foldlM_invariant (P := fun p : RangeNodes × GraphState κ ρ => p.2.LoadsStored stored)
    (fun p q p' _ hp h => ?_) hs hp
  simp only [featureBlock, bind_eq_ok_iff] at h
  obtain ⟨ls, -, call, hcall, h⟩ := h
  obtain rfl := Except.ok.inj h
  refine GraphState.LoadsStored.bindAndCache hp fun path hpath => ?_
  obtain rfl : call = .loadIfNeeded path := hpath
  exact featureCall_loadIfNeeded hcall

theorem loadsStored_treeTraversalCallback {t : FeatureTree κ} (hs : s.LoadsStored stored)
    (h : treeTraversalCallback (input.withStored stored) s t = .ok s') :
    s'.LoadsStored stored := by
  unfold treeTraversalCallback at h
  split at h
  · split at h
    · cases h
    · exact foldlM_invariant (fun _ _ _ _ hs h => loadsStored_sourceRange hs h) hs h
  · simp only [bind_eq_ok_iff] at h
    obtain ⟨overlaps, -, h⟩ := h
    refine foldlM_invariant (fun s p s' _ hs h => ?_) hs h
    obtain ⟨g, -, h⟩ := bind_eq_ok_iff.1 h
    exact loadsStored_fileBlocks hs h

theorem loadsStored_buildFeatureSetTaskGraph {trees : List (FeatureTree κ)}
    {cache : CacheTable κ (ClosedInterval ℚ) ρ}
    (h : buildFeatureSetTaskGraph (input.withStored stored) trees cache = .ok s) :
    s.LoadsStored stored := by
  have hinit : ({ cache := cache } : GraphState κ ρ).LoadsStored stored := fun _ ht => by cases ht
  refine foldlM_invariant (fun s t s' _ hs h => ?_) hinit h
  have hs' : ({ s with rangesMeta := [] } : GraphState κ ρ).LoadsStored stored := hs
  exact foldlM_invariant (fun _ _ _ _ hs h => loadsStored_treeTraversalCallback hs h) hs' h

end Replay

end Svoe
