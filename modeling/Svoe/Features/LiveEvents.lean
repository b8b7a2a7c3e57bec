import Mathlib.Data.List.TakeWhile
import Svoe.Features.LiveTuples

/-!
# The events of the live generator

For features that are data sources, `next` emits the events of one timestamp, and the joined out
stream emits the latest events of all features.  The event that `next` hands out is the last one
that was made: if the joined stream is silent it is an old one, and its timestamp is that of the
first feature's latest event, which may be from an earlier timestamp.  The prices that are sampled
at the end of every call raise on an event without `mid_price`.

* `CallInv.run` : what a group of events makes of the generator.
* `BetweenCalls.next_iff` : which groups of events a fresh event, or none, is reported of.
* `freshRun_iff` : which inputs only fresh events are reported of.
-/

namespace Svoe

open CombineLatest Generator

section Runs

variable {stddev : List ℚ → ℚ} {g : Generator} {sources : List Source}
  {v : Source → DataEvent}

/-! ### A group of events -/

/-- What a call has made of the generator `g₀` of a group of events at `t`, behind the events
`before`. -/
structure CallInv (s₀ : Source) (sources : List Source) (t : ℚ)
    (before group : List (Source × DataEvent)) (g₀ : Generator)
    (r : Generator × List (List Elem)) : Prop where
  streams : r.1.dataStreams = treesOf (s₀ :: sources) (latest (before ++ group))
  input : r.1.inputDataEvents = g₀.inputDataEvents
  lastTs : r.1.lastSampledTs = g₀.lastSampledTs
  quiet : r.2 = [] → ¬ Emits (s₀ :: sources) before group ∧
    r.1.shouldConstructNewOutEvent = true ∧ r.1.curOutEvent = g₀.curOutEvent
  emitted : r.2 ≠ [] → Emits (s₀ :: sources) before group ∧
    r.1.shouldConstructNewOutEvent = false ∧ ∃ out v, r.1.curOutEvent = some out ∧
      out.featureValues = outValues (s₀ :: sources) v ∧
      (∀ s ∈ s₀ :: sources, latest (before ++ group) s = some (v s)) ∧
      (out.timestamp = t ↔ SeenFirst (s₀ :: sources) s₀ before group)

variable {s₀ : Source} {t : ℚ} {before group : List (Source × DataEvent)} {g₀ : Generator}
  {r : Generator × List (List Elem)} {p : Source × DataEvent}

/-- An event that nothing is emitted with changes no value. -/
theorem latest_append_of_not_emitsAt {events : List (Source × DataEvent)}
    (h : ¬ EmitsAt sources events p) (hall : AllSeen sources events) {s : Source}
    (hs : s ∈ sources) : latest (events ++ [p]) s = latest events s := by
  rw [latest_append_singleton, if_neg]
  rintro rfl
  exact h ⟨hs, hall.append⟩

theorem CallInv.of_not_emitsAt (h : CallInv s₀ sources t before group g₀ r)
    (hp : ¬ EmitsAt (s₀ :: sources) (before ++ group) p) :
    CallInv s₀ sources t before (group ++ [p]) g₀
      ({ r.1 with dataStreams := treesOf (s₀ :: sources) (latest (before ++ group ++ [p])) },
        r.2 ++ []) where
  streams := by rw [List.append_assoc]
  input := h.input
  lastTs := h.lastTs
  quiet hr := by
    rw [List.append_nil] at hr
    obtain ⟨hquiet, hconstruct, hout⟩ := h.quiet hr
    refine ⟨?_, hconstruct, hout⟩
    rw [emits_append_singleton_iff]
    exact not_or.2 ⟨hquiet, hp⟩
  emitted hr := by
    rw [List.append_nil] at hr
    obtain ⟨hemits, hconstruct, out, v, hout, hvalues, hv, ht⟩ := h.emitted hr
    refine ⟨emits_append_singleton_iff.2 (.inl hemits), hconstruct, out, v, hout, hvalues,
      fun s hs => ?_, ht.trans ?_⟩
    · rw [← List.append_assoc, latest_append_of_not_emitsAt hp hemits.allSeen hs]
      exact hv s hs
    · rw [seenFirst_append_singleton_iff]
      exact ⟨fun hfirst => ⟨hfirst, fun hemits => absurd hemits hp⟩, And.left⟩

/-- The events of a group are at one timestamp, and behind all others. -/
structure GroupAt (t : ℚ) (before group : List (Source × DataEvent)) : Prop where
  at_time : ∀ q ∈ group, q.2.timestamp = t
  behind : ∀ q ∈ before, q.2.timestamp < t

/-- A latest event is at the group's timestamp only if the group has had one of its source. -/
theorem GroupAt.timestamp_eq_iff (h : GroupAt t before group) {s : Source} {e : DataEvent}
    (he : latest (before ++ group) s = some e) :
    e.timestamp = t ↔ s ∈ group.map Prod.fst := by
  by_cases hs : s ∈ group.map Prod.fst
  · rw [latest_append_of_mem hs] at he
    exact iff_of_true (h.at_time _ (mem_of_latest he)) hs
  · rw [latest_append_of_not_mem hs] at he
    exact iff_of_false (h.behind _ (mem_of_latest he)).ne hs

/-- The first emission of a call makes a new event, at the time of the first feature's latest. -/
theorem CallInv.of_first_emission (h : CallInv s₀ sources t before group g₀ r)
    (hnodup : (s₀ :: sources).Nodup) (hgroup : GroupAt t before (group ++ [p]))
    (hp : EmitsAt (s₀ :: sources) (before ++ group) p) (hr : r.2 = [])
    (hv : ∀ s ∈ s₀ :: sources, latest (before ++ group ++ [p]) s = some (v s)) :
    ∃ r', (tracedData stddev p.1 p.2 r.1 [] r.1.dataStreams).map (fun r' => (r'.1, r.2 ++ r'.2)) =
      .ok r' ∧ CallInv s₀ sources t before (group ++ [p]) g₀ r' := by
  obtain ⟨hquiet, hconstruct, -⟩ := h.quiet hr
  rw [tracedData_of_emitsAt hnodup h.streams hp.1 hv, foldlM_sinkElem_construct hnodup hconstruct]
  refine ⟨_, rfl, ?_, h.input, h.lastTs, fun hnil => ?_, fun _ => ?_⟩
  · rw [List.append_assoc]
  · simp at hnil
  · rw [List.append_assoc] at hv
    refine ⟨emits_append_singleton_iff.2 (.inr hp), rfl, _, v, rfl, rfl, hv, ?_⟩
    rw [seenFirst_append_singleton_iff]
    refine (hgroup.timestamp_eq_iff (hv s₀ List.mem_cons_self)).trans ⟨fun hs => ?_, fun hs => ?_⟩
    · refine ⟨fun pre q post heq hemits => ?_, fun _ => hs⟩
      exact absurd ⟨pre, q, post, heq, hemits⟩ hquiet
    · exact hs.2 hp

/-- A later emission of a call gives the event the new values, and leaves its time. -/
theorem CallInv.of_later_emission (h : CallInv s₀ sources t before group g₀ r)
    (hnodup : (s₀ :: sources).Nodup) (hp : EmitsAt (s₀ :: sources) (before ++ group) p)
    (hr : r.2 ≠ [])
    (hv : ∀ s ∈ s₀ :: sources, latest (before ++ group ++ [p]) s = some (v s)) :
    ∃ r', (tracedData stddev p.1 p.2 r.1 [] r.1.dataStreams).map (fun r' => (r'.1, r.2 ++ r'.2)) =
      .ok r' ∧ CallInv s₀ sources t before (group ++ [p]) g₀ r' := by
  obtain ⟨hemits, hconstruct, out, v', hout, hvalues, -, ht⟩ := h.emitted hr
  rw [tracedData_of_emitsAt hnodup h.streams hp.1 hv, foldlM_sinkElem hconstruct hout, hvalues,
    dictUpdate_outValues hnodup]
  refine ⟨_, rfl, ?_, h.input, h.lastTs, fun hnil => ?_, fun _ => ?_⟩
  · rw [List.append_assoc]
  · simp at hnil
  · rw [List.append_assoc] at hv
    refine ⟨emits_append_singleton_iff.2 (.inr hp), hconstruct, _, v, rfl, rfl, hv, ht.trans ?_⟩
    exact ⟨fun hfirst => hfirst.append_singleton hemits,
      fun hfirst => (seenFirst_append_singleton_iff.1 hfirst).1⟩

variable (stddev) in
/-- **One event of a group.** -/
theorem CallInv.step (h : CallInv s₀ sources t before group g₀ r)
    (hnodup : (s₀ :: sources).Nodup) (hgroup : GroupAt t before (group ++ [p])) :
    ∃ r', (tracedData stddev p.1 p.2 r.1 [] r.1.dataStreams).map (fun r' => (r'.1, r.2 ++ r'.2)) =
      .ok r' ∧ CallInv s₀ sources t before (group ++ [p]) g₀ r' := by
  by_cases hp : EmitsAt (s₀ :: sources) (before ++ group) p
  · have hv : ∀ s ∈ s₀ :: sources, latest (before ++ group ++ [p]) s =
        some ((latest (before ++ group ++ [p]) s).getD p.2) := by
      intro s hs
      obtain ⟨e, he⟩ := Option.ne_none_iff_exists'.1 (allSeen_iff.1 hp.2 s hs)
      rw [he]
      rfl
    by_cases hr : r.2 = []
    · exact h.of_first_emission hnodup hgroup hp hr hv
    · exact h.of_later_emission hnodup hp hr hv
  · rw [tracedData_of_not_emitsAt hnodup h.streams hp]
    exact ⟨_, rfl, h.of_not_emitsAt hp⟩

variable (stddev) in
/-- **A group of events.** -/
theorem CallInv.run {group' : List (Source × DataEvent)}
    (h : CallInv s₀ sources t before group g₀ r) (hnodup : (s₀ :: sources).Nodup)
    (hgroup : GroupAt t before (group ++ group')) :
    ∃ r', group'.foldlM (fun r p => (tracedData stddev p.1 p.2 r.1 [] r.1.dataStreams).map fun r' =>
      (r'.1, r.2 ++ r'.2)) r = .ok r' ∧ CallInv s₀ sources t before (group ++ group') g₀ r' := by
  induction group' generalizing group r with
  | nil => exact ⟨r, rfl, by rwa [List.append_nil]⟩
  | cons p group' ih =>
    rw [← List.singleton_append, ← List.append_assoc] at hgroup
    have hfirst : GroupAt t before (group ++ [p]) :=
      ⟨fun q hq => hgroup.at_time q (List.mem_append_left _ hq), hgroup.behind⟩
    obtain ⟨r₁, hr₁, hinv⟩ := h.step stddev hnodup hfirst
    obtain ⟨r', hr', hinv'⟩ := ih hinv hgroup
    refine ⟨r', ?_, by rwa [List.append_assoc] at hinv'⟩
    rw [List.foldlM_cons, hr₁]
    exact hr'

/-! ### Calls -/

/-- What the sampling of prices needs of an event of a data source. -/
def Sampled (s : Source) (e : DataEvent) : Prop :=
  (∃ price, e.value "mid_price" = .ok price) ∧
    ∃ instrument, getInstrumentForFeature (.source s) = .ok instrument

theorem Generator.exists_getMidPricesFromEvent_iff {out : DataStreamEvent}
    (hvalues : out.featureValues = outValues sources v) :
    (∃ prices, getMidPricesFromEvent out = .ok prices) ↔ ∀ s ∈ sources, Sampled s (v s) := by
  unfold getMidPricesFromEvent
  rw [hvalues, exists_foldlM_iff (Q := fun q => (∃ price, q.2.value "mid_price" = .ok price) ∧
    ∃ instrument, getInstrumentForFeature q.1 = .ok instrument)]
  · simp only [outValues, List.forall_mem_map]
    rfl
  · intro prices q _
    cases q.2.value "mid_price" with
    | error e => simp
    | ok price => simp [map_eq_ok_iff]

/-- The end of a call leaves the current event as it is, and hands it out. -/
theorem Generator.of_finish {g' : Generator} {out : Option DataStreamEvent}
    (h : g.finish = .ok (g', out)) :
    out = g.curOutEvent ∧ ∃ sampled, g' = { g with
      shouldConstructNewOutEvent := true
      sampledMidPrices := sampled } := by
  obtain ⟨streams, queue, cur, construct, input, sampled, lastTs⟩ := g
  unfold finish at h
  cases cur with
  | none =>
    obtain ⟨rfl, rfl⟩ := Prod.mk.inj (Except.ok.inj h)
    exact ⟨rfl, sampled, rfl⟩
  | some e =>
    obtain ⟨g₁, hg₁, h⟩ := map_eq_ok_iff.1 h
    obtain ⟨rfl, rfl⟩ := Prod.mk.inj h
    unfold sampleMidPrices at hg₁
    cases lastTs with
    | some ts => cases hg₁
    | none =>
      obtain ⟨prices, -, rfl⟩ := map_eq_ok_iff.1 hg₁
      exact ⟨rfl, _, rfl⟩

/-- A call without a current event ends. -/
theorem Generator.exists_finish_of_none (h : g.curOutEvent = none) :
    ∃ g', g.finish = .ok (g', none) := by
  unfold finish
  rw [h]
  exact ⟨_, rfl⟩

/-- A call with a current event ends if all its values are priced. -/
theorem Generator.exists_finish_iff {out : DataStreamEvent} (hlast : g.lastSampledTs = none)
    (hout : g.curOutEvent = some out) (hvalues : out.featureValues = outValues sources v) :
    (∃ r, g.finish = .ok r) ↔ ∀ s ∈ sources, Sampled s (v s) := by
  rw [← exists_getMidPricesFromEvent_iff hvalues]
  unfold finish sampleMidPrices
  rw [hout]
  dsimp only
  rw [hlast]
  simp only [map_eq_ok_iff]
  constructor
  · rintro ⟨r, g₁, ⟨prices, hprices, -⟩, -⟩
    exact ⟨prices, hprices⟩
  · rintro ⟨prices, hprices⟩
    exact ⟨_, _, ⟨prices, hprices, rfl⟩, rfl⟩

/-- What a call of `next` is to report of a group of events: an event if and only if the joined
stream has emitted, at the group's timestamp and with the latest value of every feature. -/
structure FreshReport (sources : List Source) (before group : List (Source × DataEvent))
    (out : Option DataStreamEvent) (tuples : List (List Elem)) : Prop where
  reported : out ≠ none ↔ tuples ≠ []
  timestamp : ∀ e ∈ out, ∀ p ∈ group, e.timestamp = p.2.timestamp
  values : ∀ e ∈ out, ∀ s ∈ sources,
    dictGet e.featureValues (.source s) = latest (before ++ group) s

/-- A group of events that a fresh event is reported of: it has an event of a feature if all
features have had one, none is joined before the first feature has had one of the group, and what
is joined has prices. -/
structure GroupFresh (s₀ : Source) (sources : List Source)
    (before group : List (Source × DataEvent)) : Prop where
  reaches : AllSeen (s₀ :: sources) before → ∃ p ∈ group, p.1 ∈ s₀ :: sources
  first : SeenFirst (s₀ :: sources) s₀ before group
  priced : Emits (s₀ :: sources) before group → ∀ s ∈ s₀ :: sources,
    ∀ e ∈ latest (before ++ group) s, Sampled s e

/-- The generator between two calls, with the events that it has popped. -/
structure BetweenCalls (s₀ : Source) (sources : List Source) (before : List (Source × DataEvent))
    (g : Generator) : Prop where
  streams : g.dataStreams = treesOf (s₀ :: sources) (latest before)
  construct : g.shouldConstructNewOutEvent = true
  lastTs : g.lastSampledTs = none
  current : g.curOutEvent ≠ none ↔ AllSeen (s₀ :: sources) before

/-- A generator that has popped events is still between two calls. -/
theorem BetweenCalls.popped (hg : BetweenCalls s₀ sources before g)
    (rest : List (Source × DataEvent)) :
    BetweenCalls s₀ sources before { g with inputDataEvents := rest } :=
  ⟨hg.streams, hg.construct, hg.lastTs, hg.current⟩

/-- A call that ends leaves the generator between two calls. -/
theorem CallInv.between (h : CallInv s₀ sources t before group g₀ r)
    (hg : BetweenCalls s₀ sources before g₀) {g' : Generator} {out : Option DataStreamEvent}
    (hfinish : r.1.finish = .ok (g', out)) : BetweenCalls s₀ sources (before ++ group) g' := by
  obtain ⟨-, sampled, rfl⟩ := of_finish hfinish
  refine ⟨h.streams, rfl, h.lastTs.trans hg.lastTs, ?_⟩
  by_cases hr : r.2 = []
  · obtain ⟨hquiet, -, hout⟩ := h.quiet hr
    rw [allSeen_append_iff_of_not_emits hquiet, ← hg.current, ← hout]
  · obtain ⟨hemits, -, out, v, hout, -⟩ := h.emitted hr
    exact iff_of_true (hout ▸ Option.some_ne_none out) hemits.allSeen

/-- A call that the joined stream is silent in: an event that has been made before is handed out
again. -/
theorem CallInv.fresh_iff_of_quiet (h : CallInv s₀ sources t before group g₀ r)
    (hg : BetweenCalls s₀ sources before g₀) (hr : r.2 = []) :
    (∃ g' out, r.1.finish = .ok (g', out) ∧ FreshReport (s₀ :: sources) before group out r.2) ↔
      GroupFresh s₀ sources before group := by
  obtain ⟨hquiet, -, hout⟩ := h.quiet hr
  by_cases hall : AllSeen (s₀ :: sources) before
  · refine iff_of_false ?_ fun hok => ?_
    · rintro ⟨g', out, hfinish, hfresh⟩
      obtain ⟨rfl, -⟩ := of_finish hfinish
      exact hfresh.reported.1 (hout ▸ hg.current.2 hall) hr
    · obtain ⟨p, hp, hkey⟩ := hok.reaches hall
      exact hquiet (emits_of_allSeen hall hp hkey)
  · have hnone : r.1.curOutEvent = none := by
      rw [hout]
      exact not_not.1 fun hne => hall (hg.current.1 hne)
    obtain ⟨g', hfinish⟩ := exists_finish_of_none hnone
    refine iff_of_true ⟨g', none, hfinish, ?_, nofun, nofun⟩ ⟨fun h => absurd h hall, ?_, ?_⟩
    · exact iff_of_false (fun hne => hne rfl) (fun hne => hne hr)
    · exact fun pre p post heq hemits => absurd ⟨pre, p, post, heq, hemits⟩ hquiet
    · exact fun hemits => absurd hemits hquiet

/-- A call that the joined stream emits in. -/
theorem CallInv.fresh_iff_of_emits (h : CallInv s₀ sources t before group g₀ r)
    (hnodup : (s₀ :: sources).Nodup) (hg : BetweenCalls s₀ sources before g₀) (hne : group ≠ [])
    (hgroup : GroupAt t before group) (hr : r.2 ≠ []) :
    (∃ g' out, r.1.finish = .ok (g', out) ∧ FreshReport (s₀ :: sources) before group out r.2) ↔
      GroupFresh s₀ sources before group := by
  obtain ⟨hemits, -, e, v, hout, hvalues, hv, ht⟩ := h.emitted hr
  have hends := exists_finish_iff (h.lastTs.trans hg.lastTs) hout hvalues
  have htime : (∀ p ∈ group, e.timestamp = p.2.timestamp) ↔ e.timestamp = t := by
    constructor
    · intro hall
      obtain ⟨p, hp⟩ := List.exists_mem_of_ne_nil group hne
      rw [hall p hp, hgroup.at_time p hp]
    · exact fun heq p hp => heq.trans (hgroup.at_time p hp).symm
  constructor
  · rintro ⟨g', out, hfinish, hfresh⟩
    obtain ⟨rfl, -⟩ := of_finish hfinish
    refine ⟨fun _ => ?_, ht.1 (htime.1 (hfresh.timestamp e hout)), fun _ s hs e' he' => ?_⟩
    · obtain ⟨pre, p, post, rfl, hkey, -⟩ := hemits
      exact ⟨p, by simp, hkey⟩
    · obtain rfl : v s = e' := Option.some.inj ((hv s hs).symm.trans he')
      exact hends.1 ⟨_, hfinish⟩ s hs
  · intro hok
    obtain ⟨⟨g', out⟩, hfinish⟩ := hends.2 fun s hs => hok.priced hemits s hs _ (hv s hs)
    obtain ⟨rfl, -⟩ := of_finish hfinish
    refine ⟨g', _, hfinish, ?_, ?_, ?_⟩
    · exact iff_of_true (hout ▸ Option.some_ne_none e) hr
    · intro e' he'
      obtain rfl : e = e' := Option.some.inj (hout.symm.trans he')
      exact htime.2 (ht.2 hok.first)
    · intro e' he' s hs
      obtain rfl : e = e' := Option.some.inj (hout.symm.trans he')
      rw [hvalues, dictGet_outValues hnodup hs, hv s hs]

/-! ### Runs -/

/-- The run of the generator to the end of its input, of which every call reports a fresh event or
none. -/
inductive FreshRun (stddev : List ℚ → ℚ) (sources : List Source) :
    List (Source × DataEvent) → Generator → Prop where
  | done {before : List (Source × DataEvent)} {g : Generator} (h : g.hasNext = false) :
    FreshRun stddev sources before g
  | call {before group : List (Source × DataEvent)} {g g₁ g' : Generator}
    {out : Option DataStreamEvent} {tuples : List (List Elem)}
    (hpop : g.popInputEvents = .ok (group, g₁))
    (hnext : g.tracedNext stddev = .ok ((g', out), tuples))
    (hfresh : FreshReport sources before group out tuples)
    (hrun : FreshRun stddev sources (before ++ group) g') : FreshRun stddev sources before g

/-- Every group of events with one timestamp satisfies `P`, with the events before it. -/
inductive EveryGroup (P : List (Source × DataEvent) → List (Source × DataEvent) → Prop) :
    List (Source × DataEvent) → List (Source × DataEvent) → Prop where
  | nil {before : List (Source × DataEvent)} : EveryGroup P before []
  | group {before rest : List (Source × DataEvent)} {p : Source × DataEvent}
    (h : P before (p :: rest.takeWhile fun q => p.2.timestamp = q.2.timestamp))
    (hrest : EveryGroup P (before ++ p :: rest.takeWhile fun q => p.2.timestamp = q.2.timestamp)
      (rest.dropWhile fun q => p.2.timestamp = q.2.timestamp)) :
    EveryGroup P before (p :: rest)

/-- The events to come are sorted, and behind those before. -/
structure SortedBehind (before events : List (Source × DataEvent)) : Prop where
  sorted : events.Pairwise fun p q => p.2.timestamp ≤ q.2.timestamp
  behind : ∀ q ∈ before, ∀ p ∈ events, q.2.timestamp < p.2.timestamp

theorem SortedBehind.groupAt {rest : List (Source × DataEvent)}
    (h : SortedBehind before (p :: rest)) : GroupAt p.2.timestamp before
      (p :: rest.takeWhile fun q => p.2.timestamp = q.2.timestamp) where
  at_time q hq := by
    rcases List.mem_cons.1 hq with rfl | hq
    · rfl
    · have hsame := List.mem_takeWhile_imp hq
      exact (of_decide_eq_true hsame).symm
  behind q hq := h.behind q hq p List.mem_cons_self

/-- The groups are maximal, so the next one is later. -/
theorem SortedBehind.next {rest : List (Source × DataEvent)}
    (h : SortedBehind before (p :: rest)) : SortedBehind
      (before ++ p :: rest.takeWhile fun q => p.2.timestamp = q.2.timestamp)
      (rest.dropWhile fun q => p.2.timestamp = q.2.timestamp) := by
  obtain ⟨hp, hrest⟩ := List.pairwise_cons.1 h.sorted
  have hdrop := List.dropWhile_sublist (l := rest) fun q : Source × DataEvent =>
    decide (p.2.timestamp = q.2.timestamp)
  have hsorted := hrest.sublist hdrop
  have hlater : ∀ q ∈ rest.dropWhile (fun q => p.2.timestamp = q.2.timestamp),
      p.2.timestamp < q.2.timestamp := by
    intro q hq
    cases hd : rest.dropWhile (fun q => p.2.timestamp = q.2.timestamp) with
    | nil => rw [hd] at hq; cases hq
    | cons q₀ tail =>
      have hne := List.head?_dropWhile_not (fun q => decide (p.2.timestamp = q.2.timestamp)) rest
      rw [hd] at hq hne hsorted hdrop
      have hlt : p.2.timestamp < q₀.2.timestamp :=
        lt_of_le_of_ne (hp q₀ (hdrop.subset List.mem_cons_self)) (by simpa using hne)
      rcases List.mem_cons.1 hq with rfl | hq
      · exact hlt
      · exact hlt.trans_le ((List.pairwise_cons.1 hsorted).1 q hq)
  refine ⟨hsorted, fun q hq r hr => ?_⟩
  rcases List.mem_append.1 hq with hq | hq
  · exact h.behind q hq r (List.mem_cons_of_mem p (hdrop.subset hr))
  · rw [h.groupAt.at_time q hq]
    exact hlater r hr

theorem Generator.popInputEvents_cons {rest : List (Source × DataEvent)}
    (hin : g.inputDataEvents = p :: rest) : g.popInputEvents =
      .ok (p :: rest.takeWhile fun q => p.2.timestamp = q.2.timestamp, { g with
        inputDataEvents := rest.dropWhile fun q => p.2.timestamp = q.2.timestamp }) := by
  unfold popInputEvents
  rw [hin]

theorem CallInv.start (hg : BetweenCalls s₀ sources before g) :
    CallInv s₀ sources t before [] g (g, []) where
  streams := by
    rw [List.append_nil]
    exact hg.streams
  input := rfl
  lastTs := rfl
  quiet _ := by
    refine ⟨?_, hg.construct, rfl⟩
    rintro ⟨pre, q, post, hnil, -⟩
    cases pre <;> cases hnil
  emitted hne := absurd rfl hne

variable (stddev) in
/-- What a call comes to. -/
theorem BetweenCalls.tracedNext (hg : BetweenCalls s₀ sources before g)
    (hnodup : (s₀ :: sources).Nodup)
    {rest : List (Source × DataEvent)} (hin : g.inputDataEvents = p :: rest)
    (hsorted : SortedBehind before (p :: rest)) :
    ∃ r, g.tracedNext stddev = r.1.finish.map (fun x => (x, r.2)) ∧
      CallInv s₀ sources p.2.timestamp before
        (p :: rest.takeWhile fun q => p.2.timestamp = q.2.timestamp)
        { g with inputDataEvents := rest.dropWhile fun q => p.2.timestamp = q.2.timestamp } r := by
  obtain ⟨r, hr, hinv⟩ := (CallInv.start (t := p.2.timestamp) (hg.popped _)).run stddev
    hnodup hsorted.groupAt
  refine ⟨r, ?_, hinv⟩
  rw [Generator.tracedNext, popInputEvents_cons hin]
  dsimp only
  rw [tracedGroup, hr]

variable (stddev) in
/-- **A call of `next`** on the next group of events. -/
theorem BetweenCalls.next_iff (hg : BetweenCalls s₀ sources before g)
    (hnodup : (s₀ :: sources).Nodup)
    {rest : List (Source × DataEvent)} (hin : g.inputDataEvents = p :: rest)
    (hsorted : SortedBehind before (p :: rest)) :
    (∃ g' out tuples, g.tracedNext stddev = .ok ((g', out), tuples) ∧
        FreshReport (s₀ :: sources) before
          (p :: rest.takeWhile fun q => p.2.timestamp = q.2.timestamp) out tuples) ↔
      GroupFresh s₀ sources before
        (p :: rest.takeWhile fun q => p.2.timestamp = q.2.timestamp) := by
  obtain ⟨r, hr, hinv⟩ := hg.tracedNext stddev hnodup hin hsorted
  have hfresh : (∃ g' out, r.1.finish = .ok (g', out) ∧ FreshReport (s₀ :: sources) before
      (p :: rest.takeWhile fun q => p.2.timestamp = q.2.timestamp) out r.2) ↔
        GroupFresh s₀ sources before
          (p :: rest.takeWhile fun q => p.2.timestamp = q.2.timestamp) := by
    by_cases htuples : r.2 = []
    · exact hinv.fresh_iff_of_quiet (hg.popped _) htuples
    · exact hinv.fresh_iff_of_emits hnodup (hg.popped _) (List.cons_ne_nil _ _) hsorted.groupAt
        htuples
  rw [← hfresh, hr]
  simp only [map_eq_ok_iff]
  constructor
  · rintro ⟨g', out, tuples, ⟨x, hx, heq⟩, h⟩
    obtain ⟨rfl, rfl⟩ := Prod.mk.inj heq
    exact ⟨g', out, hx, h⟩
  · rintro ⟨g', out, hfinish, h⟩
    exact ⟨g', out, r.2, ⟨_, hfinish, rfl⟩, h⟩

/-- The generator between the call and the next. -/
theorem BetweenCalls.of_tracedNext (hg : BetweenCalls s₀ sources before g)
    (hnodup : (s₀ :: sources).Nodup)
    {rest : List (Source × DataEvent)} (hin : g.inputDataEvents = p :: rest)
    (hsorted : SortedBehind before (p :: rest)) {g' : Generator} {out : Option DataStreamEvent}
    {tuples : List (List Elem)} (hnext : g.tracedNext stddev = .ok ((g', out), tuples)) :
    BetweenCalls s₀ sources
      (before ++ p :: rest.takeWhile fun q => p.2.timestamp = q.2.timestamp) g' ∧
      g'.inputDataEvents = rest.dropWhile fun q => p.2.timestamp = q.2.timestamp := by
  obtain ⟨r, hr, hinv⟩ := hg.tracedNext stddev hnodup hin hsorted
  rw [hr] at hnext
  obtain ⟨x, hx, heq⟩ := map_eq_ok_iff.1 hnext
  obtain ⟨rfl, -⟩ := Prod.mk.inj heq
  refine ⟨hinv.between (hg.popped _) hx, ?_⟩
  obtain ⟨-, sampled, rfl⟩ := of_finish hx
  exact hinv.input

/-- A run reports fresh events if and only if every group of events to come allows it. -/
theorem BetweenCalls.run_iff (hg : BetweenCalls s₀ sources before g)
    (hnodup : (s₀ :: sources).Nodup)
    (hsorted : SortedBehind before g.inputDataEvents) :
    FreshRun stddev (s₀ :: sources) before g ↔
      EveryGroup (GroupFresh s₀ sources) before g.inputDataEvents := by
  constructor
  · intro hrun
    induction hrun with
    | @done before g hdone =>
      have hnil : g.inputDataEvents = [] := by simpa [hasNext] using hdone
      rw [hnil]
      exact .nil
    | @call before group g g₁ g' out tuples hpop hnext hfresh hrun ih =>
      cases hin : g.inputDataEvents with
      | nil =>
        unfold popInputEvents at hpop
        rw [hin] at hpop
        cases hpop
      | cons p rest =>
        rw [hin] at hsorted
        rw [popInputEvents_cons hin] at hpop
        obtain ⟨rfl, -⟩ := Prod.mk.inj (Except.ok.inj hpop)
        obtain ⟨hg', hin'⟩ := hg.of_tracedNext hnodup hin hsorted hnext
        refine .group ((hg.next_iff stddev hnodup hin hsorted).1
          ⟨g', out, tuples, hnext, hfresh⟩) ?_
        rw [← hin']
        exact ih hg' (hin' ▸ hsorted.next)
  · intro hgroups
    generalize hin : g.inputDataEvents = events at hgroups hsorted
    induction hgroups generalizing g with
    | nil => exact .done (by simp [hasNext, hin])
    | @group before rest p h hrest ih =>
      obtain ⟨g', out, tuples, hnext, hfresh⟩ :=
        (hg.next_iff stddev hnodup hin hsorted).2 h
      obtain ⟨hg', hin'⟩ := hg.of_tracedNext hnodup hin hsorted hnext
      exact .call (popInputEvents_cons hin) hnext hfresh (ih hg' hin' hsorted.next)

theorem between_init {events : List (Source × DataEvent)} :
    BetweenCalls s₀ sources [] (init ((s₀ :: sources).map .source) events) := by
  refine ⟨?_, rfl, rfl, ?_⟩
  · rw [treesOf, init, List.map_map]
    rfl
  · refine iff_of_false (fun hne => hne rfl) fun hall => ?_
    exact absurd (hall s₀ List.mem_cons_self) List.not_mem_nil

/-- **The live generator reports only fresh events** if and only if every group of its input events
allows it. -/
theorem freshRun_iff {events : List (Source × DataEvent)} (hnodup : (s₀ :: sources).Nodup)
    (hsorted : events.Pairwise fun p q => p.2.timestamp ≤ q.2.timestamp) :
    FreshRun stddev (s₀ :: sources) [] (init ((s₀ :: sources).map .source) events) ↔
      EveryGroup (GroupFresh s₀ sources) [] events :=
  between_init.run_iff hnodup ⟨hsorted, fun _ h => absurd h List.not_mem_nil⟩

/-- A group that begins with an event of the first feature. -/
theorem groupFresh_cons_self {e : DataEvent}
    (hpriced : ∀ q ∈ before ++ (s₀, e) :: group, Sampled q.1 q.2) :
    GroupFresh s₀ sources before ((s₀, e) :: group) where
  reaches _ := ⟨(s₀, e), List.mem_cons_self, List.mem_cons_self⟩
  first pre p post heq _ := by
    cases pre with
    | nil =>
      obtain ⟨rfl, -⟩ := List.cons.inj heq
      exact List.mem_cons_self
    | cons q pre =>
      obtain ⟨rfl, -⟩ := List.cons.inj heq
      exact List.mem_cons_self
  priced _ s _ e he := hpriced (s, e) (mem_of_latest he)

end Runs

/-! ### Two prices -/

/-- A synthetic price. -/
def priceSource (symbol : String) : Source :=
  ⟨"SyntheticSineMidPrice",
    [("exchange", "BINANCE"), ("instrument_type", "spot"), ("symbol", symbol)]⟩

/-- An event of a synthetic price. -/
def priceEvent (symbol : String) (timestamp price : ℚ) : Source × DataEvent :=
  (priceSource symbol, .midPrice ⟨timestamp, timestamp, price⟩)

theorem priced_priceEvent (symbol : String) (timestamp price : ℚ) :
    Sampled (priceEvent symbol timestamp price).1 (priceEvent symbol timestamp price).2 := by
  refine ⟨⟨price, ?_⟩, ⟨"BINANCE", "spot", symbol⟩, ?_⟩
  · rfl
  · rfl

/-- The prices of timestamp 1, and the one of timestamp 2. -/
theorem splitAtTwo_priceEvent (symbol : String) (price : ℚ) :
    [priceEvent "ETH" 1 10, priceEvent symbol 2 price].takeWhile (fun q =>
        (priceEvent "BTC" 1 100).2.timestamp = q.2.timestamp) = [priceEvent "ETH" 1 10] ∧
      [priceEvent "ETH" 1 10, priceEvent symbol 2 price].dropWhile (fun q =>
        (priceEvent "BTC" 1 100).2.timestamp = q.2.timestamp) = [priceEvent symbol 2 price] := by
  constructor
  · norm_num [List.takeWhile, priceEvent, DataEvent.timestamp]
  · norm_num [List.dropWhile, priceEvent, DataEvent.timestamp]

/-- Every group begins with the price of the first feature. -/
theorem freshRun_twoPrices : FreshRun (fun _ => 0) [priceSource "BTC", priceSource "ETH"] []
    (.init ([priceSource "BTC", priceSource "ETH"].map .source)
      [priceEvent "BTC" 1 100, priceEvent "ETH" 1 10, priceEvent "BTC" 2 101]) := by
  obtain ⟨htake, hdrop⟩ := splitAtTwo_priceEvent "BTC" 101
  refine (freshRun_iff (by decide) (by decide +kernel)).2 (.group ?_ ?_)
  · rw [htake]
    refine groupFresh_cons_self ?_
    simp only [List.nil_append, List.forall_mem_cons]
    exact ⟨priced_priceEvent .., priced_priceEvent .., fun _ h => absurd h List.not_mem_nil⟩
  · rw [htake, hdrop]
    refine .group (groupFresh_cons_self ?_) .nil
    simp only [List.nil_append, List.cons_append, List.forall_mem_cons, List.takeWhile_nil]
    exact ⟨priced_priceEvent .., priced_priceEvent .., priced_priceEvent ..,
      fun _ h => absurd h List.not_mem_nil⟩

/-- A group without the first feature's price: its event has the time of the one before. -/
theorem not_freshRun_secondPrice :
    ¬ FreshRun (fun _ => 0) [priceSource "BTC", priceSource "ETH"] []
      (.init ([priceSource "BTC", priceSource "ETH"].map .source)
        [priceEvent "BTC" 1 100, priceEvent "ETH" 1 10, priceEvent "ETH" 2 11]) ∧
    ((Generator.init ([priceSource "BTC", priceSource "ETH"].map .source)
      [priceEvent "BTC" 1 100, priceEvent "ETH" 1 10, priceEvent "ETH" 2 11]).next (fun _ => 0) >>=
        fun r => r.1.next fun _ => 0).map (fun r => r.2.map DataStreamEvent.timestamp) =
          .ok (some 1) := by
  obtain ⟨htake, hdrop⟩ := splitAtTwo_priceEvent "ETH" 11
  refine ⟨fun hrun => ?_, by decide +kernel⟩
  have hsorted : SortedBehind [] [priceEvent "BTC" 1 100, priceEvent "ETH" 1 10,
      priceEvent "ETH" 2 11] := ⟨by decide +kernel, fun _ h => absurd h List.not_mem_nil⟩
  have hgroups := (between_init.run_iff (by decide) hsorted).1 hrun
  replace hgroups : EveryGroup (GroupFresh (priceSource "BTC") [priceSource "ETH"]) []
    [priceEvent "BTC" 1 100, priceEvent "ETH" 1 10, priceEvent "ETH" 2 11] := hgroups
  cases hgroups with
  | group _ hrest =>
    rw [htake, hdrop] at hrest
    cases hrest with
    | group hsecond _ =>
      have hemits : EmitsAt [priceSource "BTC", priceSource "ETH"]
          ([priceEvent "BTC" 1 100, priceEvent "ETH" 1 10] ++ []) (priceEvent "ETH" 2 11) :=
        ⟨by decide, by unfold AllSeen; decide⟩
      have hfirst := hsecond.first [] (priceEvent "ETH" 2 11) [] rfl hemits
      exact absurd hfirst (by decide)

end Svoe
