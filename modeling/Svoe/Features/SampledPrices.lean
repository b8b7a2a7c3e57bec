import Svoe.Common.Time
import Svoe.Features.LiveEvents
import Svoe.Transition.Basic

/-!
# Sampled mid prices

Every call of `next` that has a current event adds its mid prices to the samples: the marker of the
last sample is never set, so the sampling period is never looked at.

* `emitGroup_frame`, `emitGroup_of_silent` : what emitting events leaves alone.
* `JoinedCall.run` : the event that a group makes.
* `SamplingInv.step` : what one call makes of the samples.
* `sampledApart_iff` : the samples keep the period if and only if every group of events is late
  enough.
-/

namespace Svoe

open CombineLatest Generator

/-! ### Samples and their period -/

/-- A call of `next` that returns. -/
def nextStep (stddev : List ℚ → ℚ) (g : Generator) (_ : Unit) : Option Generator :=
  match g.next stddev with
  | .ok (g, _) => some g
  | .error _ => none

/-- A time is later than another one by more than the period. -/
def LaterBy (period : Window) (a b : ℚ) : Prop := a < b ∧ convertStrToSeconds period < b - a

instance (period : Window) (a b : ℚ) : Decidable (LaterBy period a b) :=
  inferInstanceAs (Decidable (_ ∧ _))

/-- The next call comes to `cur_ts - self._last_sampled_ts > self._price_sampling_period`, which
compares a number with a string. -/
def SamplingTestRaises (stddev : List ℚ → ℚ) (g : Generator) : Prop :=
  ∃ group g₁ g₂ out last, g.popInputEvents = .ok (group, g₁) ∧
    g₁.emitGroup stddev group = .ok g₂ ∧ g₂.curOutEvent = some out ∧ g₂.lastSampledTs = some last

/-- The samples of every instrument are in order and apart. -/
def ApartSamples (period : Window) (sampled : List (Instrument × List (ℚ × ℚ))) : Prop :=
  ∀ instrument samples, dictGet sampled instrument = some samples →
    (samples.map Prod.fst).IsChain (LaterBy period)

/-- The samples of every instrument are in order and apart, and the sampling test does not raise. -/
structure SampledApart (stddev : List ℚ → ℚ) (period : Window) (g : Generator) : Prop where
  apart : ApartSamples period g.sampledMidPrices
  test : ¬ SamplingTestRaises stddev g

/-- The timestamp of an element. -/
def Elem.timestamp : Elem → ℚ
  | .bare event => event.timestamp
  | .named _ event => event.timestamp

/-- The timestamp that a group gives its event: that of the first stream's element when the first
event that reaches a stream has come. -/
def groupTimestamp (g : Generator) (group : List (Source × DataEvent)) : Option ℚ :=
  match g.dataStreams.head?,
    group.find? fun p => g.dataStreams.any fun tree => p.1 = tree.feature.dataSource with
  | some tree, some p =>
    if p.1 = tree.feature.dataSource then some p.2.timestamp else tree.last.map Elem.timestamp
  | _, _ => none

/-- If there is an event already, the next group has an event that reaches a stream and is later
than it by more than the period. -/
def GroupLater (period : Window) (g : Generator) (_ : Unit) : Prop :=
  ∀ out, g.curOutEvent = some out → ∀ group g', g.popInputEvents = .ok (group, g') →
    ∃ ts, groupTimestamp g group = some ts ∧ LaterBy period out.timestamp ts

theorem groupLater_of_none {period : Window} {g : Generator} {u : Unit}
    (h : g.curOutEvent = none) : GroupLater period g u := by
  intro out hout
  rw [h] at hout
  cases hout

theorem groupLater_iff {period : Window} {g g' : Generator} {u : Unit} {out : DataStreamEvent}
    {group : List (Source × DataEvent)} (hcur : g.curOutEvent = some out)
    (hpop : g.popInputEvents = .ok (group, g')) : GroupLater period g u ↔
      ∃ ts ∈ groupTimestamp g group, LaterBy period out.timestamp ts := by
  refine ⟨fun hlater => hlater out hcur _ _ hpop, fun hlater out' hout' group' g'' hpop' => ?_⟩
  obtain rfl := Option.some.inj (hcur.symm.trans hout')
  obtain ⟨rfl, -⟩ := Prod.mk.inj (Except.ok.inj (hpop.symm.trans hpop'))
  exact hlater

instance (period : Window) (g : Generator) (u : Unit) : Decidable (GroupLater period g u) :=
  match hcur : g.curOutEvent with
  | none => .isTrue (groupLater_of_none hcur)
  | some out =>
    match hpop : g.popInputEvents with
    | .error e => .isTrue fun out _ group g' hok => by
        rw [hpop] at hok
        cases hok
    | .ok (group, g') =>
      match hts : groupTimestamp g group with
      | none => .isFalse fun h => by simp [groupLater_iff hcur hpop, hts] at h
      | some ts => decidable_of_iff (LaterBy period out.timestamp ts)
          (by simp [groupLater_iff hcur hpop, hts])

/-! ### Emitting events -/

section Emitting

variable {stddev : List ℚ → ℚ} {g g' : Generator} {data : Source} {event : DataEvent}
  {trees done : List StreamTree} {group : List (Source × DataEvent)}

/-- What emitting events leaves alone. -/
structure SameSamples (g g' : Generator) : Prop where
  sampled : g'.sampledMidPrices = g.sampledMidPrices
  lastTs : g'.lastSampledTs = g.lastSampledTs

theorem SameSamples.trans {g'' : Generator} (h : SameSamples g g') (h' : SameSamples g' g'') :
    SameSamples g g'' :=
  ⟨h'.sampled.trans h.sampled, h'.lastTs.trans h.lastTs⟩

theorem sinkElem_frame {elem : Elem} (h : g.sinkElem elem = .ok g') : SameSamples g g' := by
  cases elem with
  | bare event => cases h
  | named data event =>
    obtain rfl := Except.ok.inj h
    exact ⟨rfl, rfl⟩

theorem emitUnified_frame (h : g.emitUnified trees = .ok g') : SameSamples g g' := by
  unfold emitUnified at h
  split at h
  · obtain rfl := Except.ok.inj h
    exact ⟨rfl, rfl⟩
  · exact foldlM_invariant (P := SameSamples g)
      (fun s a s' _ hs hstep => hs.trans (sinkElem_frame hstep)) ⟨rfl, rfl⟩ h

theorem emitData_frame (h : emitData stddev data event g done trees = .ok g') :
    SameSamples g g' := by
  induction trees generalizing g done with
  | nil =>
    obtain rfl := Except.ok.inj h
    exact ⟨rfl, rfl⟩
  | cons tree trees ih =>
    rw [emitData] at h
    split_ifs at h
    · split at h
      · cases h
      · have hrest := ih h
        exact ⟨hrest.sampled, hrest.lastTs⟩
      · split at h
        · cases h
        · next hunified =>
          have hrest := (emitUnified_frame hunified).trans (ih h)
          exact ⟨hrest.sampled, hrest.lastTs⟩
    · exact ih h

/-- **Emitting a group** takes no samples. -/
theorem emitGroup_frame (h : g.emitGroup stddev group = .ok g') : SameSamples g g' :=
  foldlM_invariant (P := SameSamples g)
    (fun _ _ _ _ hs hstep => hs.trans (emitData_frame hstep)) ⟨rfl, rfl⟩ h

/-- One of the trees belongs to a definition and has emitted nothing. -/
def HasSilentTree (trees : List StreamTree) : Prop :=
  ∃ tree ∈ trees, (∃ d dep, tree.feature = .derived d dep) ∧ tree.last = none

theorem mapM_last_of_silent (h : HasSilentTree trees) : trees.mapM StreamTree.last = none := by
  obtain ⟨tree, hmem, -, hlast⟩ := h
  induction trees with
  | nil => cases hmem
  | cons t trees ih =>
    rw [List.mapM_cons]
    rcases List.mem_cons.1 hmem with rfl | hmem
    · rw [hlast]
      rfl
    · rw [ih hmem]
      cases t.last <;> rfl

/-- As long as a tree is silent there is no new event, and an event that reaches it raises. -/
theorem emitData_of_silent (hsilent : HasSilentTree (done ++ trees))
    (h : emitData stddev data event g done trees = .ok g') :
    g'.curOutEvent = g.curOutEvent ∧ HasSilentTree g'.dataStreams := by
  induction trees generalizing g done with
  | nil =>
    obtain rfl := Except.ok.inj h
    exact ⟨rfl, by rwa [List.append_nil] at hsilent⟩
  | cons tree trees ih =>
    obtain ⟨f, state, last⟩ := tree
    by_cases hdata : data = f.dataSource
    · cases f with
      | derived d dep =>
        obtain ⟨err, herr⟩ := Feature.emit_named stddev g.queue d dep state data event
        rw [emitData, if_pos hdata, herr] at h
        cases h
      | source s =>
        -- the element that the stream passes on joins no tuple
        have hrest : HasSilentTree
            (done ++ ⟨.source s, state, some (.named data event)⟩ :: trees) := by
          obtain ⟨tree, hmem, ⟨d, dep, hf⟩, hlast⟩ := hsilent
          refine ⟨tree, ?_, ⟨d, dep, hf⟩, hlast⟩
          rw [List.mem_append, List.mem_cons] at hmem ⊢
          refine hmem.imp_right fun hmem => .inr (hmem.resolve_left ?_)
          rintro rfl
          cases hf
        have hunified : emitUnified { g with queue := g.queue }
            (done ++ ⟨.source s, state, some (.named data event)⟩ :: trees) = .ok g := by
          rw [emitUnified, mapM_last_of_silent hrest]
        rw [emitData, if_pos hdata] at h
        simp only [Feature.emit, hunified] at h
        exact ih (by rwa [List.append_assoc]) h
    · rw [emitData, if_neg hdata] at h
      exact ih (by rwa [List.append_assoc]) h

/-- **A group that a silent tree gets past** makes no event. -/
theorem emitGroup_of_silent (hsilent : HasSilentTree g.dataStreams)
    (h : g.emitGroup stddev group = .ok g') :
    g'.curOutEvent = g.curOutEvent ∧ HasSilentTree g'.dataStreams :=
  foldlM_invariant (P := fun s => s.curOutEvent = g.curOutEvent ∧ HasSilentTree s.dataStreams)
    (fun s _ _ _ hs hstep => by
      have hdone : HasSilentTree ([] ++ s.dataStreams) := hs.2
      obtain ⟨hcur, hsilent⟩ := emitData_of_silent hdone hstep
      exact ⟨hcur.trans hs.1, hsilent⟩) ⟨rfl, hsilent⟩ h

end Emitting

/-! ### The event of a group -/

section Sources

variable {stddev : List ℚ → ℚ} {g g' g₀ : Generator} {s₀ : Source} {sources : List Source}
  {before group : List (Source × DataEvent)} {p : Source × DataEvent} {v : Source → DataEvent}
  {ts : ℚ}

/-- The timestamp is that of the first feature's latest event at the first emission. -/
def StampedAt (s₀ : Source) (sources : List Source) (before group : List (Source × DataEvent))
    (ts : ℚ) : Prop :=
  ∃ pre p post e, group = pre ++ p :: post ∧ ¬ Emits (s₀ :: sources) before pre ∧
    EmitsAt (s₀ :: sources) (before ++ pre) p ∧
    latest (before ++ pre ++ [p]) s₀ = some e ∧ e.timestamp = ts

theorem StampedAt.append_singleton (h : StampedAt s₀ sources before group ts) :
    StampedAt s₀ sources before (group ++ [p]) ts := by
  obtain ⟨pre, q, post, e, rfl, hrest⟩ := h
  exact ⟨pre, q, post ++ [p], e, by simp, hrest⟩

/-- What a call has made of the generator `g₀` of a group of events, behind the events `before`. -/
structure JoinedCall (s₀ : Source) (sources : List Source)
    (before group : List (Source × DataEvent)) (g₀ g : Generator) : Prop where
  streams : g.dataStreams = treesOf (s₀ :: sources) (latest (before ++ group))
  quiet : ¬ Emits (s₀ :: sources) before group →
    g.shouldConstructNewOutEvent = true ∧ g.curOutEvent = g₀.curOutEvent
  emitted : Emits (s₀ :: sources) before group → g.shouldConstructNewOutEvent = false ∧
    ∃ out v, g.curOutEvent = some out ∧ out.featureValues = outValues (s₀ :: sources) v ∧
      StampedAt s₀ sources before group out.timestamp

/-- The values after an event that the joined stream emits. -/
theorem exists_latest_of_emitsAt {events : List (Source × DataEvent)}
    (hp : EmitsAt sources events p) :
    ∃ v : Source → DataEvent, ∀ s ∈ sources, latest (events ++ [p]) s = some (v s) := by
  refine ⟨fun s => (latest (events ++ [p]) s).getD p.2, fun s hs => ?_⟩
  obtain ⟨e, he⟩ := Option.ne_none_iff_exists'.1 (allSeen_iff.1 hp.2 s hs)
  simp only [he, Option.getD_some]

variable (stddev) in
/-- **One event of a group.** -/
theorem JoinedCall.step (h : JoinedCall s₀ sources before group g₀ g)
    (hnodup : (s₀ :: sources).Nodup) (p : Source × DataEvent) :
    ∃ g', emitData stddev p.1 p.2 g [] g.dataStreams = .ok g' ∧
      JoinedCall s₀ sources before (group ++ [p]) g₀ g' := by
  rw [← tracedData_fst]
  by_cases hp : EmitsAt (s₀ :: sources) (before ++ group) p
  · obtain ⟨v, hv⟩ := exists_latest_of_emitsAt hp
    rw [tracedData_of_emitsAt hnodup h.streams hp.1 hv]
    have hemits : Emits (s₀ :: sources) before (group ++ [p]) :=
      emits_append_singleton_iff.2 (.inr hp)
    by_cases hgroup : Emits (s₀ :: sources) before group
    · -- the event of this call gets the new values
      obtain ⟨hconstruct, out, v', hout, hvalues, hstamp⟩ := h.emitted hgroup
      rw [foldlM_sinkElem hconstruct hout, hvalues, dictUpdate_outValues hnodup]
      refine ⟨_, rfl, by rw [List.append_assoc], fun hquiet => absurd hemits hquiet, fun _ => ?_⟩
      exact ⟨hconstruct, _, v, rfl, rfl, hstamp.append_singleton⟩
    · obtain ⟨hconstruct, -⟩ := h.quiet hgroup
      rw [foldlM_sinkElem_construct hnodup hconstruct]
      refine ⟨_, rfl, by rw [List.append_assoc], fun hquiet => absurd hemits hquiet, fun _ => ?_⟩
      exact ⟨rfl, _, v, rfl, rfl, group, p, [], v s₀, rfl, hgroup, hp, hv s₀ List.mem_cons_self,
        rfl⟩
  · rw [tracedData_of_not_emitsAt hnodup h.streams hp]
    refine ⟨_, rfl, by rw [List.append_assoc], fun hquiet => ?_, fun hemits => ?_⟩
    · exact h.quiet fun hgroup => hquiet (emits_append_singleton_iff.2 (.inl hgroup))
    · obtain ⟨hconstruct, out, v, hout, hvalues, hstamp⟩ :=
        h.emitted ((emits_append_singleton_iff.1 hemits).resolve_right hp)
      exact ⟨hconstruct, out, v, hout, hvalues, hstamp.append_singleton⟩

variable (stddev) in
/-- **A group of events.** -/
theorem JoinedCall.run {group' : List (Source × DataEvent)}
    (h : JoinedCall s₀ sources before group g₀ g) (hnodup : (s₀ :: sources).Nodup) :
    ∃ g', g.emitGroup stddev group' = .ok g' ∧
      JoinedCall s₀ sources before (group ++ group') g₀ g' := by
  unfold emitGroup
  induction group' generalizing group g with
  | nil => exact ⟨g, rfl, by rwa [List.append_nil]⟩
  | cons p group' ih =>
    obtain ⟨g₁, hg₁, h₁⟩ := h.step stddev hnodup p
    obtain ⟨g', hg', h'⟩ := ih h₁
    refine ⟨g', ?_, by rwa [List.append_assoc] at h'⟩
    rw [List.foldlM_cons, hg₁]
    exact hg'

theorem not_emits_nil : ¬ Emits sources before [] := by
  rintro ⟨pre, q, post, hnil, -⟩
  cases pre <;> cases hnil

/-- Once all features have been seen, a group emits with its first event of a feature. -/
theorem emits_iff_of_allSeen (h : AllSeen sources before) :
    Emits sources before group ↔ ∃ p ∈ group, p.1 ∈ sources := by
  constructor
  · rintro ⟨pre, p, post, rfl, hkey, -⟩
    exact ⟨p, by simp, hkey⟩
  · rintro ⟨p, hp, hkey⟩
    exact emits_of_allSeen h hp hkey

/-- The streams that an event reaches. -/
theorem any_treesOf {l : Source → Option DataEvent} (s : Source) :
    (treesOf sources l).any (fun tree => s = tree.feature.dataSource) = decide (s ∈ sources) := by
  rw [treesOf, List.any_map, Bool.eq_iff_iff]
  simp only [List.any_eq_true, Function.comp_apply, decide_eq_true_eq]
  constructor
  · rintro ⟨s', hs', rfl⟩
    exact hs'
  · exact fun hs => ⟨s, hs, rfl⟩

/-- The timestamp that a group gives, for features that are data sources. -/
theorem groupTimestamp_of_stampedAt
    (hstreams : g.dataStreams = treesOf (s₀ :: sources) (latest before))
    (hall : AllSeen (s₀ :: sources) before) (h : StampedAt s₀ sources before group ts) :
    groupTimestamp g group = some ts := by
  obtain ⟨pre, p, post, e, rfl, hpre, hp, he, rfl⟩ := h
  rw [emits_iff_of_allSeen hall] at hpre
  have hfind : (pre ++ p :: post).find? (fun p => (treesOf (s₀ :: sources) (latest before)).any
      fun tree => p.1 = tree.feature.dataSource) = some p := by
    simp only [any_treesOf]
    rw [List.find?_append, List.find?_cons_of_pos (by simpa using hp.1), List.find?_eq_none.2]
    · rfl
    · exact fun q hq hkey => hpre ⟨q, hq, by simpa using hkey⟩
  rw [groupTimestamp, hstreams, hfind]
  rw [latest_append_singleton] at he
  by_cases hs₀ : p.1 = s₀
  · rw [if_pos hs₀] at he
    obtain rfl := Option.some.inj he
    exact if_pos hs₀
  · have hnot : s₀ ∉ pre.map Prod.fst := by
      intro hmem
      obtain ⟨q, hq, rfl⟩ := List.mem_map.1 hmem
      exact hpre ⟨q, hq, List.mem_cons_self⟩
    rw [if_neg hs₀, latest_append_of_not_mem hnot] at he
    refine (if_neg hs₀).trans ?_
    change Option.map Elem.timestamp ((latest before s₀).map (.named s₀)) = _
    rw [he]
    rfl

/-- A group that reaches no stream gives no timestamp. -/
theorem groupTimestamp_of_not_emits
    (hstreams : g.dataStreams = treesOf (s₀ :: sources) (latest before))
    (hall : AllSeen (s₀ :: sources) before) (h : ¬ Emits (s₀ :: sources) before group) :
    groupTimestamp g group = none := by
  rw [emits_iff_of_allSeen hall] at h
  have hfind : group.find? (fun p => (treesOf (s₀ :: sources) (latest before)).any
      fun tree => p.1 = tree.feature.dataSource) = none := by
    simp only [any_treesOf]
    exact List.find?_eq_none.2 fun q hq hkey => h ⟨q, hq, by simpa using hkey⟩
  rw [groupTimestamp, hstreams, hfind]
  rfl

end Sources

/-! ### Taking samples -/

section Sampling

variable {stddev : List ℚ → ℚ} {g g' : Generator} {out : DataStreamEvent}
  {sampled : List (Instrument × List (ℚ × ℚ))} {midPrices : List (Instrument × ℚ)} {ts : ℚ}

/-- The samples with the mid prices at a time. -/
def addSamples (sampled : List (Instrument × List (ℚ × ℚ))) (ts : ℚ)
    (midPrices : List (Instrument × ℚ)) : List (Instrument × List (ℚ × ℚ)) :=
  midPrices.foldl (fun sampled p =>
    dictSet sampled p.1 ((dictGet sampled p.1).getD [] ++ [(ts, p.2)])) sampled

theorem exists_dictGet {i : Instrument} (hi : i ∈ midPrices.map Prod.fst) :
    ∃ price, dictGet midPrices i = some price :=
  Option.ne_none_iff_exists'.1 (mt dictGet_eq_none_iff.1 (not_not.2 hi))

/-- The samples of an instrument with one more, if it has a price. -/
theorem dictGet_addSamples (hnodup : (midPrices.map Prod.fst).Nodup) (i : Instrument) :
    dictGet (addSamples sampled ts midPrices) i =
      match dictGet midPrices i with
      | some price => some ((dictGet sampled i).getD [] ++ [(ts, price)])
      | none => dictGet sampled i := by
  induction midPrices generalizing sampled with
  | nil => rfl
  | cons p midPrices ih =>
    obtain ⟨hp, hnodup⟩ := List.nodup_cons.1 hnodup
    rw [addSamples, List.foldl_cons, ← addSamples, ih hnodup, dictGet_dictSet]
    by_cases hi : p.1 = i
    · subst hi
      have hcons : dictGet (p :: midPrices) p.1 = some p.2 := by simp [dictGet]
      rw [hcons, dictGet_eq_none_iff.2 hp, if_pos rfl]
    · have hcons : dictGet (p :: midPrices) i = dictGet midPrices i := by
        rw [dictGet, List.find?_cons_of_neg (by simpa using hi), ← dictGet]
      rw [hcons, if_neg hi]

/-- One round of the loop over the features of an event. -/
def addMidPrice (midPrices : List (Instrument × ℚ)) (p : Feature × DataEvent) :
    Except PyError (List (Instrument × ℚ)) :=
  match p.2.value "mid_price" with
  | .error _ => .error (.value
      "DataGenerator event should contain mid_price field for all data/instrument inputs")
  | .ok midPrice => (getInstrumentForFeature p.1).map fun instrument =>
      dictSet midPrices instrument midPrice

theorem eq_dictSet_of_addMidPrice {p : Feature × DataEvent} {midPrices' : List (Instrument × ℚ)}
    (h : addMidPrice midPrices p = .ok midPrices') : ∃ i price,
      getInstrumentForFeature p.1 = .ok i ∧ midPrices' = dictSet midPrices i price := by
  unfold addMidPrice at h
  cases hprice : p.2.value "mid_price" with
  | error e =>
    rw [hprice] at h
    cases h
  | ok price =>
    rw [hprice] at h
    obtain ⟨i, hi, rfl⟩ := map_eq_ok_iff.1 h
    exact ⟨i, price, hi, rfl⟩

/-- The loop over the features has a price for the instrument of each. -/
theorem foldlM_addMidPrice {l : List (Feature × DataEvent)} {acc : List (Instrument × ℚ)}
    (hacc : (acc.map Prod.fst).Nodup) (h : l.foldlM addMidPrice acc = .ok midPrices) :
    (midPrices.map Prod.fst).Nodup ∧ acc.map Prod.fst ⊆ midPrices.map Prod.fst ∧
      ∀ p ∈ l, ∃ i, getInstrumentForFeature p.1 = .ok i ∧ i ∈ midPrices.map Prod.fst := by
  induction l generalizing acc with
  | nil =>
    obtain rfl := Except.ok.inj h
    exact ⟨hacc, List.Subset.refl _, fun p hp => absurd hp List.not_mem_nil⟩
  | cons p l ih =>
    rw [List.foldlM_cons, bind_eq_ok_iff] at h
    obtain ⟨acc', hacc', h⟩ := h
    obtain ⟨i, price, hi, rfl⟩ := eq_dictSet_of_addMidPrice hacc'
    obtain ⟨hnodup, hsub, hall⟩ := ih (nodup_keys_dictSet hacc i price) h
    have hmem : i ∈ (dictSet acc i price).map Prod.fst := by
      rw [keys_dictSet]
      split_ifs with hmem
      · exact hmem
      · exact List.mem_append_right _ List.mem_cons_self
    exact ⟨hnodup, List.Subset.trans (keys_subset_keys_dictSet acc i price) hsub,
      List.forall_mem_cons.2 ⟨⟨i, hi, hsub hmem⟩, hall⟩⟩

/-- The mid prices of an event: one for the instrument of every feature. -/
theorem getMidPricesFromEvent_spec (h : getMidPricesFromEvent out = .ok midPrices) :
    (midPrices.map Prod.fst).Nodup ∧ ∀ p ∈ out.featureValues, ∃ i,
      getInstrumentForFeature p.1 = .ok i ∧ i ∈ midPrices.map Prod.fst := by
  have hnil : (([] : List (Instrument × ℚ)).map Prod.fst).Nodup := List.nodup_nil
  obtain ⟨hnodup, -, hall⟩ := foldlM_addMidPrice hnil h
  exact ⟨hnodup, hall⟩

/-- The end of a call without an event. -/
theorem finish_of_none (h : g.curOutEvent = none) :
    g.finish = .ok ({ g with shouldConstructNewOutEvent := true }, none) := by
  unfold finish
  rw [h]

/-- **The end of a call with an event**: all its mid prices are sampled. -/
theorem finish_of_some {result : Option DataStreamEvent} (hlast : g.lastSampledTs = none)
    (hout : g.curOutEvent = some out) (h : g.finish = .ok (g', result)) :
    ∃ midPrices, getMidPricesFromEvent out = .ok midPrices ∧ g' = { g with
      shouldConstructNewOutEvent := true
      sampledMidPrices := addSamples g.sampledMidPrices out.timestamp midPrices } := by
  obtain ⟨streams, queue, cur, construct, input, sampled, lastTs⟩ := g
  obtain rfl : cur = some out := hout
  obtain rfl : lastTs = none := hlast
  unfold finish at h
  obtain ⟨g₁, hg₁, h⟩ := map_eq_ok_iff.1 h
  obtain ⟨rfl, -⟩ := Prod.mk.inj h
  unfold sampleMidPrices at hg₁
  obtain ⟨midPrices, hmid, rfl⟩ := map_eq_ok_iff.1 hg₁
  exact ⟨midPrices, hmid, rfl⟩

end Sampling

/-! ### Samples that are apart -/

section Apart

variable {period : Window} {sampled : List (Instrument × List (ℚ × ℚ))}
  {midPrices : List (Instrument × ℚ)} {ts : ℚ}

/-- No samples end later than the time, and those of one instrument end at it. -/
structure SampledUntil (sampled : List (Instrument × List (ℚ × ℚ))) (i₀ : Instrument) (ts : ℚ) :
    Prop where
  le : ∀ i samples, dictGet sampled i = some samples → ∀ p ∈ samples.getLast?, p.1 ≤ ts
  ends : ∃ samples price, dictGet sampled i₀ = some (samples ++ [(ts, price)])

theorem LaterBy.of_le {a b c : ℚ} (hab : a ≤ b) (hbc : LaterBy period b c) : LaterBy period a c :=
  ⟨hab.trans_lt hbc.1, hbc.2.trans_le (sub_le_sub_left hab c)⟩

/-- One more sample. -/
theorem isChain_append_sample {samples : List (ℚ × ℚ)} {price : ℚ} :
    ((samples ++ [(ts, price)]).map Prod.fst).IsChain (LaterBy period) ↔
      (samples.map Prod.fst).IsChain (LaterBy period) ∧
        ∀ p ∈ samples.getLast?, LaterBy period p.1 ts := by
  rw [List.map_append, List.isChain_append]
  simp [List.getLast?_map]

theorem apartSamples_nil : ApartSamples period [] := nofun

/-- The first samples are apart. -/
theorem apartSamples_addSamples_nil (hnodup : (midPrices.map Prod.fst).Nodup) :
    ApartSamples period (addSamples [] ts midPrices) := by
  intro i samples hi
  rw [dictGet_addSamples hnodup] at hi
  cases hprice : dictGet midPrices i with
  | none =>
    rw [hprice] at hi
    cases hi
  | some price =>
    rw [hprice] at hi
    obtain rfl := Option.some.inj hi
    exact List.isChain_singleton _

/-- **More samples are apart** if and only if they are later than those before by more than the
period. -/
theorem apartSamples_addSamples_iff {i₀ : Instrument} {t : ℚ}
    (hapart : ApartSamples period sampled) (hnodup : (midPrices.map Prod.fst).Nodup)
    (hi₀ : i₀ ∈ midPrices.map Prod.fst) (huntil : SampledUntil sampled i₀ t) :
    ApartSamples period (addSamples sampled ts midPrices) ↔ LaterBy period t ts := by
  constructor
  · intro h
    obtain ⟨samples, price₀, hsamples⟩ := huntil.ends
    obtain ⟨price, hprice⟩ := exists_dictGet hi₀
    have hchain := h i₀ (samples ++ [(t, price₀)] ++ [(ts, price)]) (by
      rw [dictGet_addSamples hnodup, hprice, hsamples]
      rfl)
    exact (isChain_append_sample.1 hchain).2 (t, price₀) (by simp)
  · intro hlater i samples hi
    rw [dictGet_addSamples hnodup] at hi
    cases hprice : dictGet midPrices i with
    | none =>
      rw [hprice] at hi
      exact hapart i samples hi
    | some price =>
      rw [hprice] at hi
      obtain rfl := Option.some.inj hi
      cases hold : dictGet sampled i with
      | none => exact List.isChain_singleton _
      | some old =>
        refine isChain_append_sample.2 ⟨hapart i old hold, fun p hp => ?_⟩
        exact hlater.of_le (huntil.le i old hold p hp)

/-- The samples end at the time of the last ones. -/
theorem SampledUntil.addSamples {i₀ : Instrument} (hnodup : (midPrices.map Prod.fst).Nodup)
    (hi₀ : i₀ ∈ midPrices.map Prod.fst)
    (hle : ∀ i samples, dictGet sampled i = some samples → ∀ p ∈ samples.getLast?, p.1 ≤ ts) :
    SampledUntil (Svoe.addSamples sampled ts midPrices) i₀ ts where
  le i samples hi p hp := by
    rw [dictGet_addSamples hnodup] at hi
    cases hprice : dictGet midPrices i with
    | none =>
      rw [hprice] at hi
      exact hle i samples hi p hp
    | some price =>
      rw [hprice] at hi
      obtain rfl := Option.some.inj hi
      rw [List.getLast?_concat] at hp
      obtain rfl := Option.some.inj hp
      exact le_rfl
  ends := by
    obtain ⟨price, hprice⟩ := exists_dictGet hi₀
    exact ⟨_, price, by rw [dictGet_addSamples hnodup, hprice]⟩

end Apart

/-! ### Calls -/

section Calls

variable {stddev : List ℚ → ℚ} {period : Window} {g g₀ g₁ g' : Generator} {s₀ : Source}
  {sources : List Source} {before group : List (Source × DataEvent)}
  {out : DataStreamEvent} {result : Option DataStreamEvent}

/-- The generator between two calls, with the samples that it has taken. -/
structure SampledCalls (s₀ : Source) (sources : List Source) (before : List (Source × DataEvent))
    (g : Generator) : Prop extends BetweenCalls s₀ sources before g where
  noSamples : g.curOutEvent = none → g.sampledMidPrices = []
  values : ∀ out, g.curOutEvent = some out →
    ∃ v, out.featureValues = outValues (s₀ :: sources) v
  samples : ∀ out, g.curOutEvent = some out →
    ∃ i₀, getInstrumentForFeature (.source s₀) = .ok i₀ ∧
      SampledUntil g.sampledMidPrices i₀ out.timestamp

/-- The marker of the last sample is not set, and there are either samples of the joined stream or,
when it never emits, none. -/
inductive SamplingInv (g : Generator) : Prop
  | joined {s₀ : Source} {sources : List Source} {before : List (Source × DataEvent)}
    (hnodup : (s₀ :: sources).Nodup) (h : SampledCalls s₀ sources before g)
  | silent (hlast : g.lastSampledTs = none) (hcur : g.curOutEvent = none)
    (hsampled : g.sampledMidPrices = [])
    (hstreams : g.dataStreams = [] ∨ HasSilentTree g.dataStreams)

/-- A call that returns pops a group, emits it and takes samples. -/
theorem nextStep_eq_some (h : nextStep stddev g () = some g') : ∃ group g₁ g₂ result,
    g.popInputEvents = .ok (group, g₁) ∧ g₁.emitGroup stddev group = .ok g₂ ∧
      g₂.finish = .ok (g', result) := by
  unfold nextStep next at h
  cases hpop : g.popInputEvents with
  | error e =>
    rw [hpop] at h
    cases h
  | ok r =>
    obtain ⟨group, g₁⟩ := r
    rw [hpop] at h
    dsimp only at h
    cases hemit : g₁.emitGroup stddev group with
    | error e =>
      rw [hemit] at h
      cases h
    | ok g₂ =>
      rw [hemit] at h
      dsimp only at h
      cases hfinish : g₂.finish with
      | error e =>
        rw [hfinish] at h
        cases h
      | ok r =>
        rw [hfinish] at h
        obtain rfl := Option.some.inj h
        exact ⟨group, g₁, g₂, r.2, rfl, hemit, hfinish⟩

/-- What popping the events of a timestamp leaves alone. -/
theorem eq_of_popInputEvents (h : g.popInputEvents = .ok (group, g₁)) :
    ∃ rest, g₁ = { g with inputDataEvents := rest } := by
  unfold popInputEvents at h
  split at h
  · cases h
  · obtain ⟨-, rfl⟩ := Prod.mk.inj (Except.ok.inj h)
    exact ⟨_, rfl⟩

/-- Without a marker the test of the period is not made. -/
theorem not_samplingTestRaises (h : g.lastSampledTs = none) : ¬ SamplingTestRaises stddev g := by
  rintro ⟨group, g₁, g₂, out, last, hpop, hemit, -, hlast⟩
  obtain ⟨rest, rfl⟩ := eq_of_popInputEvents hpop
  rw [(emitGroup_frame hemit).lastTs, h] at hlast
  cases hlast

theorem JoinedCall.start (hg : BetweenCalls s₀ sources before g) :
    JoinedCall s₀ sources before [] g g where
  streams := by
    rw [List.append_nil]
    exact hg.streams
  quiet _ := ⟨hg.construct, rfl⟩
  emitted hemits := absurd hemits not_emits_nil

/-- A call that ends leaves the generator between two calls. -/
theorem JoinedCall.between (h : JoinedCall s₀ sources before group g₀ g)
    (hg : BetweenCalls s₀ sources before g₀) (hlast : g.lastSampledTs = none)
    (hfinish : g.finish = .ok (g', result)) : BetweenCalls s₀ sources (before ++ group) g' := by
  obtain ⟨-, sampled, rfl⟩ := of_finish hfinish
  refine ⟨h.streams, rfl, hlast, ?_⟩
  by_cases hemits : Emits (s₀ :: sources) before group
  · obtain ⟨-, out, v, hout, -⟩ := h.emitted hemits
    exact iff_of_true (hout ▸ Option.some_ne_none out) hemits.allSeen
  · rw [allSeen_append_iff_of_not_emits hemits, ← hg.current, ← (h.quiet hemits).2]

/-- The samples at the end of a call with an event of the joined stream. -/
theorem exists_samples_of_finish {v : Source → DataEvent} (hlast : g.lastSampledTs = none)
    (hout : g.curOutEvent = some out) (hvalues : out.featureValues = outValues (s₀ :: sources) v)
    (hfinish : g.finish = .ok (g', result)) : ∃ i₀ midPrices,
      getInstrumentForFeature (.source s₀) = .ok i₀ ∧ (midPrices.map Prod.fst).Nodup ∧
        i₀ ∈ midPrices.map Prod.fst ∧ g'.curOutEvent = some out ∧
          g'.sampledMidPrices = addSamples g.sampledMidPrices out.timestamp midPrices := by
  obtain ⟨midPrices, hmid, rfl⟩ := finish_of_some hlast hout hfinish
  obtain ⟨hnodup, hall⟩ := getMidPricesFromEvent_spec hmid
  obtain ⟨i₀, hi₀, hmem⟩ := hall (.source s₀, v s₀) (by
    rw [hvalues]
    exact List.mem_cons_self)
  exact ⟨i₀, midPrices, hi₀, hnodup, hmem, hout, rfl⟩

/-- The samples of a new event, which is no earlier than those before it. -/
theorem SampledCalls.of_samples {v : Source → DataEvent} {i₀ : Instrument}
    {sampled : List (Instrument × List (ℚ × ℚ))} {midPrices : List (Instrument × ℚ)}
    (hbetween : BetweenCalls s₀ sources before g) (hout : g.curOutEvent = some out)
    (hvalues : out.featureValues = outValues (s₀ :: sources) v)
    (hi₀ : getInstrumentForFeature (.source s₀) = .ok i₀)
    (hnodup : (midPrices.map Prod.fst).Nodup) (hmem : i₀ ∈ midPrices.map Prod.fst)
    (hsampled : g.sampledMidPrices = addSamples sampled out.timestamp midPrices)
    (hle : ∀ i samples, dictGet sampled i = some samples →
      ∀ p ∈ samples.getLast?, p.1 ≤ out.timestamp) : SampledCalls s₀ sources before g where
  toBetweenCalls := hbetween
  noSamples hnone := by
    rw [hout] at hnone
    cases hnone
  values out' hout' := by
    obtain rfl := Option.some.inj (hout.symm.trans hout')
    exact ⟨v, hvalues⟩
  samples out' hout' := by
    obtain rfl := Option.some.inj (hout.symm.trans hout')
    exact ⟨i₀, hi₀, hsampled ▸ SampledUntil.addSamples hnodup hmem hle⟩

/-- A call before which there is no event takes the first samples, or none. -/
theorem JoinedCall.first (h : JoinedCall s₀ sources before group g₀ g) (hsame : SameSamples g₀ g)
    (hg : SampledCalls s₀ sources before g₀) (hcur : g₀.curOutEvent = none)
    (hfinish : g.finish = .ok (g', result)) :
    ApartSamples period g'.sampledMidPrices ∧ SampledCalls s₀ sources (before ++ group) g' := by
  have hlast := hsame.lastTs.trans hg.lastTs
  have hbetween := h.between hg.toBetweenCalls hlast hfinish
  have hnil := hsame.sampled.trans (hg.noSamples hcur)
  by_cases hemits : Emits (s₀ :: sources) before group
  · obtain ⟨-, out, v, hout, hvalues, -⟩ := h.emitted hemits
    obtain ⟨i₀, midPrices, hi₀, hnodup, hmem, hout', hsampled⟩ :=
      exists_samples_of_finish hlast hout hvalues hfinish
    rw [hnil] at hsampled
    exact ⟨hsampled ▸ apartSamples_addSamples_nil hnodup,
      .of_samples hbetween hout' hvalues hi₀ hnodup hmem hsampled nofun⟩
  · have hnone := (h.quiet hemits).2.trans hcur
    obtain ⟨rfl, -⟩ := Prod.mk.inj (Except.ok.inj ((finish_of_none hnone).symm.trans hfinish))
    have hno : ∀ out, g.curOutEvent ≠ some out := by simp [hnone]
    exact ⟨hnil ▸ apartSamples_nil, hbetween, fun _ => hnil, fun out hout => absurd hout (hno out),
      fun out hout => absurd hout (hno out)⟩

/-- A call that makes no event takes another sample at the time of the last one. -/
theorem JoinedCall.stale (h : JoinedCall s₀ sources before group g₀ g) (hsame : SameSamples g₀ g)
    (hg : SampledCalls s₀ sources before g₀) (hcur : g₀.curOutEvent = some out)
    (hapart : ApartSamples period g₀.sampledMidPrices)
    (hemits : ¬ Emits (s₀ :: sources) before group) (hfinish : g.finish = .ok (g', result)) :
    ¬ ApartSamples period g'.sampledMidPrices := by
  obtain ⟨v, hvalues⟩ := hg.values out hcur
  obtain ⟨i₀, midPrices, hi₀, hnodup, hmem, -, hsampled⟩ := exists_samples_of_finish
    (hsame.lastTs.trans hg.lastTs) ((h.quiet hemits).2.trans hcur) hvalues hfinish
  obtain ⟨i, hi, huntil⟩ := hg.samples out hcur
  obtain rfl := Except.ok.inj (hi.symm.trans hi₀)
  rw [hsampled, hsame.sampled, apartSamples_addSamples_iff hapart hnodup hmem huntil]
  exact fun hlater => lt_irrefl _ hlater.1

/-- A call that makes a new event samples it. -/
theorem JoinedCall.fresh (h : JoinedCall s₀ sources before group g₀ g) (hsame : SameSamples g₀ g)
    (hg : SampledCalls s₀ sources before g₀) (hcur : g₀.curOutEvent = some out)
    (hapart : ApartSamples period g₀.sampledMidPrices)
    (hemits : Emits (s₀ :: sources) before group) (hfinish : g.finish = .ok (g', result)) :
    ∃ ts, StampedAt s₀ sources before group ts ∧
      (ApartSamples period g'.sampledMidPrices ↔ LaterBy period out.timestamp ts) ∧
        (LaterBy period out.timestamp ts → SampledCalls s₀ sources (before ++ group) g') := by
  have hlast := hsame.lastTs.trans hg.lastTs
  obtain ⟨-, out', v, hout, hvalues, hstamp⟩ := h.emitted hemits
  obtain ⟨i₀, midPrices, hi₀, hnodup, hmem, hout', hsampled⟩ :=
    exists_samples_of_finish hlast hout hvalues hfinish
  obtain ⟨i, hi, huntil⟩ := hg.samples out hcur
  obtain rfl := Except.ok.inj (hi.symm.trans hi₀)
  rw [hsame.sampled] at hsampled
  refine ⟨out'.timestamp, hstamp, ?_, fun hlater => ?_⟩
  · rw [hsampled, apartSamples_addSamples_iff hapart hnodup hmem huntil]
  · have hbetween := h.between hg.toBetweenCalls hlast hfinish
    exact .of_samples hbetween hout' hvalues hi₀ hnodup hmem hsampled fun i samples hi p hp =>
      (huntil.le i samples hi p hp).trans hlater.1.le

/-- The test of the period is not made in any state of the run. -/
theorem sampledApart_iff_of_last (hlast : g.lastSampledTs = none) :
    SampledApart stddev period g ↔ ApartSamples period g.sampledMidPrices :=
  ⟨SampledApart.apart, fun h => ⟨h, not_samplingTestRaises hlast⟩⟩

/-- **A call**, for features that are data sources. -/
theorem SampledCalls.step (hg : SampledCalls s₀ sources before g) (hnodup : (s₀ :: sources).Nodup)
    (hapart : SampledApart stddev period g) (h : nextStep stddev g () = some g') :
    (SampledApart stddev period g' → SamplingInv g') ∧
      (SampledApart stddev period g' ↔ GroupLater period g ()) := by
  obtain ⟨group, g₁, g₂, result, hpop, hemit, hfinish⟩ := nextStep_eq_some h
  obtain ⟨rest, rfl⟩ := eq_of_popInputEvents hpop
  have hg₁ : SampledCalls s₀ sources before { g with inputDataEvents := rest } :=
    ⟨hg.popped rest, hg.noSamples, hg.values, hg.samples⟩
  have hsame := emitGroup_frame hemit
  have hcall : JoinedCall s₀ sources before group { g with inputDataEvents := rest } g₂ := by
    obtain ⟨g₂', hg₂', hcall⟩ := (JoinedCall.start hg₁.toBetweenCalls).run stddev hnodup
    obtain rfl := Except.ok.inj (hg₂'.symm.trans hemit)
    exact hcall
  have hlast := (hcall.between hg₁.toBetweenCalls (hsame.lastTs.trans hg.lastTs) hfinish).lastTs
  rw [sampledApart_iff_of_last hlast]
  cases hcur : g.curOutEvent with
  | none =>
    obtain ⟨hsampled, hg'⟩ := hcall.first hsame hg₁ hcur hfinish
    exact ⟨fun _ => .joined hnodup hg', iff_of_true hsampled (groupLater_of_none hcur)⟩
  | some out =>
    have hall := hg.current.1 (hcur ▸ Option.some_ne_none out)
    rw [groupLater_iff hcur hpop]
    by_cases hemits : Emits (s₀ :: sources) before group
    · obtain ⟨ts, hstamp, hiff, hg'⟩ := hcall.fresh hsame hg₁ hcur hapart.apart hemits hfinish
      rw [groupTimestamp_of_stampedAt hg.streams hall hstamp, hiff]
      exact ⟨fun hlater => .joined hnodup (hg' hlater), by simp⟩
    · have hstale := hcall.stale hsame hg₁ hcur hapart.apart hemits hfinish
      refine ⟨fun hsampled => absurd hsampled hstale, iff_of_false hstale ?_⟩
      rw [groupTimestamp_of_not_emits hg.streams hall hemits]
      simp

/-- **A call**, when the joined stream never emits. -/
theorem SamplingInv.step_of_silent (hlast : g.lastSampledTs = none) (hcur : g.curOutEvent = none)
    (hsampled : g.sampledMidPrices = [])
    (hstreams : g.dataStreams = [] ∨ HasSilentTree g.dataStreams)
    (h : nextStep stddev g () = some g') :
    SamplingInv g' ∧ SampledApart stddev period g' := by
  obtain ⟨group, g₁, g₂, result, hpop, hemit, hfinish⟩ := nextStep_eq_some h
  obtain ⟨rest, rfl⟩ := eq_of_popInputEvents hpop
  have hsame := emitGroup_frame hemit
  have hrest : g₂.curOutEvent = none ∧ (g₂.dataStreams = [] ∨ HasSilentTree g₂.dataStreams) := by
    rcases hstreams with hnil | hsilent
    · rw [emitGroup_of_forall_ne stddev (by simp [hnil])] at hemit
      obtain rfl := Except.ok.inj hemit
      exact ⟨hcur, .inl hnil⟩
    · have hsilent₁ : HasSilentTree
          ({ g with inputDataEvents := rest } : Generator).dataStreams := hsilent
      obtain ⟨hcur₂, hsilent₂⟩ := emitGroup_of_silent hsilent₁ hemit
      exact ⟨hcur₂.trans hcur, .inr hsilent₂⟩
  obtain ⟨rfl, -⟩ :=
    Prod.mk.inj (Except.ok.inj ((finish_of_none hrest.1).symm.trans hfinish))
  have hnil := hsame.sampled.trans hsampled
  refine ⟨.silent (hsame.lastTs.trans hlast) hrest.1 hnil hrest.2, ?_,
    not_samplingTestRaises (hsame.lastTs.trans hlast)⟩
  exact hnil ▸ apartSamples_nil

/-- **A call keeps the samples apart** if and only if its group is late enough. -/
theorem SamplingInv.step (hg : SamplingInv g) (hapart : SampledApart stddev period g)
    (h : nextStep stddev g () = some g') :
    (SampledApart stddev period g' → SamplingInv g') ∧
      (SampledApart stddev period g' ↔ GroupLater period g ()) := by
  cases hg with
  | joined hnodup hg => exact hg.step hnodup hapart h
  | silent hlast hcur hsampled hstreams =>
    obtain ⟨hg', hapart'⟩ := step_of_silent hlast hcur hsampled hstreams h
    exact ⟨fun _ => hg', iff_of_true hapart' (groupLater_of_none hcur)⟩

/-- The generator at the start. -/
theorem samplingInv_init {features : List Feature} {inputs : List (Source × DataEvent)}
    (hnodup : features.Nodup) : SamplingInv (init features inputs) := by
  by_cases hder : ∃ f ∈ features, ∃ d dep, f = .derived d dep
  · obtain ⟨f, hf, hder⟩ := hder
    exact .silent rfl rfl rfl (.inr ⟨_, List.mem_map_of_mem hf, hder, rfl⟩)
  · have hsources : features = (features.map Feature.dataSource).map .source := by
      rw [List.map_map]
      refine (List.map_id features).symm.trans (List.map_congr_left fun f hf => ?_)
      cases f with
      | source s => rfl
      | derived d dep => exact absurd ⟨_, hf, d, dep, rfl⟩ hder
    rw [hsources] at hnodup ⊢
    generalize features.map Feature.dataSource = sources at hnodup ⊢
    cases sources with
    | nil => exact .silent rfl rfl rfl (.inl rfl)
    | cons s₀ sources =>
      have hinit : SampledCalls s₀ sources [] (init ((s₀ :: sources).map .source) inputs) :=
        ⟨between_init, fun _ => rfl, nofun, nofun⟩
      exact .joined (hnodup.of_map Feature.source) hinit

/-- **Sampled prices respect the period** in all states of a run if and only if every call that has
an event already gets a group that is late enough. -/
theorem sampledApart_iff {features : List Feature} {inputs : List (Source × DataEvent)}
    {steps : List Unit} (hnodup : features.Nodup)
    (hrun : Transition.run (nextStep stddev) (init features inputs) steps = some g) :
    Transition.AllStates (nextStep stddev) (SampledApart stddev period) (init features inputs)
        steps ↔
      Transition.AllSteps (nextStep stddev) (GroupLater period) (init features inputs) steps :=
  Transition.allStates_iff_allSteps (fun _ _ _ hg hapart hstep => hg.step hapart hstep)
    (samplingInv_init hnodup) ⟨apartSamples_nil, not_samplingTestRaises rfl⟩ hrun

end Calls

/-! ### Two prices -/

/-- The prices of one instrument, every two seconds. -/
theorem sampledApart_iff_everyTwoSeconds :
    Transition.AllStates (nextStep fun _ => 0) (SampledApart (fun _ => 0) ⟨1, .s⟩)
      (init [.source (priceSource "BTC")] [priceEvent "BTC" 1 100, priceEvent "BTC" 3 101])
      [(), ()] := by
  have hsome : (Transition.run (nextStep fun _ => 0) (init [.source (priceSource "BTC")]
      [priceEvent "BTC" 1 100, priceEvent "BTC" 3 101]) [(), ()]).isSome := by decide +kernel
  obtain ⟨g, hrun⟩ := Option.isSome_iff_exists.1 hsome
  have hlater : Transition.AllSteps (nextStep fun _ => 0) (GroupLater ⟨1, .s⟩)
      (init [.source (priceSource "BTC")] [priceEvent "BTC" 1 100, priceEvent "BTC" 3 101])
      [(), ()] := by decide +kernel
  exact (sampledApart_iff (List.nodup_singleton _) hrun).2 hlater

/-- A price half a second after the one before is sampled, too. -/
theorem not_sampledApart_everyHalfSecond :
    (Transition.run (nextStep fun _ => 0) (init [.source (priceSource "BTC")]
      [priceEvent "BTC" 1 100, priceEvent "BTC" (3 / 2) 101]) [(), ()]).isSome ∧
    ¬ Transition.AllStates (nextStep fun _ => 0) (SampledApart (fun _ => 0) ⟨1, .s⟩)
      (init [.source (priceSource "BTC")] [priceEvent "BTC" 1 100, priceEvent "BTC" (3 / 2) 101])
      [(), ()] := by
  have hsamples : (Transition.run (nextStep fun _ => 0) (init [.source (priceSource "BTC")]
      [priceEvent "BTC" 1 100, priceEvent "BTC" (3 / 2) 101]) [(), ()]).map (fun g =>
        dictGet g.sampledMidPrices ⟨"BINANCE", "spot", "BTC"⟩) =
          some (some [(1, 100), (3 / 2, 101)]) := by decide +kernel
  obtain ⟨g, hrun, hg⟩ := Option.map_eq_some_iff.1 hsamples
  refine ⟨hrun ▸ rfl, fun hall => ?_⟩
  exact absurd ((Transition.of_allStates hall hrun).apart _ _ hg) (by decide +kernel)

end Svoe
