import Mathlib.Data.List.TakeWhile
import Svoe.Features.Generator
import Svoe.Transition.While

/-!
# The groups of the live generator's input

`_pop_input_events` moves a cursor over the input list: past the first event, and past each event
behind it with the same timestamp.  The generator model has the rest of the list in place of the
cursor.

* `popInputEvents_drop` : the rest of the list is what the cursor has not passed.
* `PoppedInv.popRound` : what one call of `_pop_input_events` keeps.
* `popAll_groups` : the popped groups are the runs of equal timestamps.
-/

namespace Svoe

open Transition

/-- `input_data_events` and `cur_input_event_index`. -/
structure InputCursor where
  inputDataEvents : List (Source × DataEvent)
  curInputEventIndex : ℕ
  deriving DecidableEq

namespace InputCursor

/-- `# group events with same ts`: the group and the index that the loop ends with. -/
def groupSameTs (events : List (Source × DataEvent)) (timestamp : ℚ) (index : ℕ)
    (res : List (Source × DataEvent)) : List (Source × DataEvent) × ℕ :=
  if h : index < events.length then
    if timestamp = events[index].2.timestamp then
      groupSameTs events timestamp (index + 1) (res ++ [events[index]])
    else (res, index)
  else (res, index)
termination_by events.length - index

/-- `_pop_input_events`. -/
def popInputEvents (c : InputCursor) : Except PyError (List (Source × DataEvent) × InputCursor) :=
  match c.inputDataEvents[c.curInputEventIndex]? with
  | none => .error .index
  | some p =>
    let (res, index) :=
      groupSameTs c.inputDataEvents p.2.timestamp (c.curInputEventIndex + 1) [p]
    .ok (res, { c with curInputEventIndex := index })

/-- `has_next`. -/
def hasNext (c : InputCursor) : Bool := c.curInputEventIndex < c.inputDataEvents.length

/-- The input events that the cursor has not passed. -/
def rest (c : InputCursor) : List (Source × DataEvent) :=
  c.inputDataEvents.drop c.curInputEventIndex

/-- A round of `while has_next(): groups.append(_pop_input_events())`. -/
def popRound (s : InputCursor × List (List (Source × DataEvent))) :
    Except PyError
      (InputCursor × List (List (Source × DataEvent)) ⊕ List (List (Source × DataEvent))) :=
  if s.1.hasNext then s.1.popInputEvents.map fun r => .inl (r.2, s.2 ++ [r.1])
  else .ok (.inr s.2)

/-- The groups that are popped until `has_next` is false. -/
def popAll (events : List (Source × DataEvent)) (rounds : ℕ) :
    Option (Except PyError (List (List (Source × DataEvent)))) :=
  iterate popRound rounds (⟨events, 0⟩, [])

variable {events res group : List (Source × DataEvent)} {timestamp : ℚ} {index : ℕ}
  {c c' : InputCursor} {groups : List (List (Source × DataEvent))} {p : Source × DataEvent}

/-! ### One call -/

/-- The loop takes the events behind the cursor as long as their timestamp is the same. -/
theorem groupSameTs_spec (events : List (Source × DataEvent)) (timestamp : ℚ) (index : ℕ)
    (res : List (Source × DataEvent)) :
    (groupSameTs events timestamp index res).1 =
        res ++ (events.drop index).takeWhile (fun q => timestamp = q.2.timestamp) ∧
      events.drop (groupSameTs events timestamp index res).2 =
        (events.drop index).dropWhile fun q => timestamp = q.2.timestamp := by
  induction index, res using groupSameTs.induct events timestamp with
  | case1 index res h hsame ih =>
    rw [groupSameTs, dif_pos h, if_pos hsame, List.drop_eq_getElem_cons h, List.takeWhile_cons,
      List.dropWhile_cons, if_pos (decide_eq_true hsame), if_pos (decide_eq_true hsame), ih.1, ih.2]
    exact ⟨by rw [List.append_assoc, List.singleton_append], rfl⟩
  | case2 index res h hsame =>
    have hnot : ¬ decide (timestamp = events[index].2.timestamp) = true := by simpa using hsame
    rw [groupSameTs, dif_pos h, if_neg hsame, List.drop_eq_getElem_cons h, List.takeWhile_cons,
      List.dropWhile_cons, if_neg hnot, if_neg hnot]
    exact ⟨(List.append_nil _).symm, rfl⟩
  | case3 index res h =>
    have hdrop : events.drop index = [] := List.drop_eq_nil_of_le (Nat.le_of_not_lt h)
    rw [groupSameTs, dif_neg h, hdrop]
    exact ⟨(List.append_nil _).symm, rfl⟩

theorem hasNext_iff : c.hasNext = true ↔ c.rest ≠ [] := by
  rw [hasNext, decide_eq_true_iff, rest, ne_eq, List.drop_eq_nil_iff, Nat.not_le]

/-- What a call makes of the rest of the input. -/
theorem popInputEvents_of_rest_eq_cons {rest : List (Source × DataEvent)}
    (h : c.rest = p :: rest) : ∃ c', c'.inputDataEvents = c.inputDataEvents ∧
      c'.rest = rest.dropWhile (fun q => p.2.timestamp = q.2.timestamp) ∧
      c.popInputEvents =
        .ok (p :: rest.takeWhile (fun q => p.2.timestamp = q.2.timestamp), c') := by
  have hp : c.inputDataEvents[c.curInputEventIndex]? = some p := by
    rw [← List.head?_drop]
    exact congrArg List.head? h
  have hrest : c.inputDataEvents.drop (c.curInputEventIndex + 1) = rest := by
    rw [← List.tail_drop]
    exact congrArg List.tail h
  obtain ⟨hgroup, hindex⟩ :=
    groupSameTs_spec c.inputDataEvents p.2.timestamp (c.curInputEventIndex + 1) [p]
  rw [hrest] at hgroup hindex
  refine ⟨⟨c.inputDataEvents, (groupSameTs c.inputDataEvents p.2.timestamp _ [p]).2⟩, rfl, hindex,
    ?_⟩
  rw [popInputEvents, hp]
  dsimp only
  rw [hgroup, List.singleton_append]

/-- The generator model pops the same groups. -/
theorem popInputEvents_drop (c : InputCursor) (g : Generator) :
    { g with inputDataEvents := c.rest }.popInputEvents =
      c.popInputEvents.map fun r => (r.1, { g with inputDataEvents := r.2.rest }) := by
  cases h : c.rest with
  | nil =>
    have hnone : c.inputDataEvents[c.curInputEventIndex]? = none := by
      rw [← List.head?_drop]
      exact congrArg List.head? h
    rw [popInputEvents, hnone]
    rfl
  | cons p rest =>
    obtain ⟨c', -, hrest, hpop⟩ := popInputEvents_of_rest_eq_cons h
    rw [hpop, Except.map, hrest]
    rfl

/-! ### All calls -/

/-- The groups are the runs of equal timestamps of the events. -/
structure TimestampGroups (events : List (Source × DataEvent))
    (groups : List (List (Source × DataEvent))) : Prop where
  flatten_eq : groups.flatten = events
  ne_nil : ∀ group ∈ groups, group ≠ []
  timestamp_eq : ∀ group ∈ groups, ∀ p ∈ group, ∀ q ∈ group, p.2.timestamp = q.2.timestamp
  /-- No group could be longer. -/
  timestamp_ne : groups.IsChain fun group group' =>
    ∀ p ∈ group, ∀ q ∈ group', p.2.timestamp ≠ q.2.timestamp

/-- What has been popped, and what is to come. -/
structure PoppedInv (events : List (Source × DataEvent))
    (s : InputCursor × List (List (Source × DataEvent))) : Prop where
  input : s.1.inputDataEvents = events
  passed : s.2.flatten ++ s.1.rest = events
  popped : TimestampGroups s.2.flatten s.2
  /-- The last group would not go on. -/
  closed : ∀ group ∈ s.2.getLast?, ∀ q ∈ s.1.rest.head?, ∀ p ∈ group,
    p.2.timestamp ≠ q.2.timestamp

theorem TimestampGroups.append_singleton (h : TimestampGroups groups.flatten groups)
    (hnil : group ≠ []) (hsame : ∀ p ∈ group, ∀ q ∈ group, p.2.timestamp = q.2.timestamp)
    (hclosed : ∀ g ∈ groups.getLast?, ∀ p ∈ g, ∀ q ∈ group, p.2.timestamp ≠ q.2.timestamp) :
    TimestampGroups (groups ++ [group]).flatten (groups ++ [group]) where
  flatten_eq := rfl
  ne_nil g hg := by
    rcases List.mem_append.1 hg with hg | hg
    · exact h.ne_nil g hg
    · rwa [List.mem_singleton.1 hg]
  timestamp_eq g hg := by
    rcases List.mem_append.1 hg with hg | hg
    · exact h.timestamp_eq g hg
    · rwa [List.mem_singleton.1 hg]
  timestamp_ne := by
    refine List.isChain_append.2 ⟨h.timestamp_ne, List.isChain_singleton group, ?_⟩
    intro g hg g' hg'
    obtain rfl := Option.mem_some_iff.1 hg'
    exact hclosed g hg

/-- **One call.** -/
theorem PoppedInv.popRound {s : InputCursor × List (List (Source × DataEvent))}
    (h : PoppedInv events s) (hnext : s.1.hasNext = true) :
    ∃ s', popRound s = .ok (.inl s') ∧ PoppedInv events s' ∧
      s'.1.rest.length < s.1.rest.length := by
  obtain ⟨p, rest, hrest⟩ := List.exists_cons_of_ne_nil (hasNext_iff.1 hnext)
  obtain ⟨c', hinput, hrest', hpop⟩ := popInputEvents_of_rest_eq_cons hrest
  have hhead : ∀ q ∈ p :: rest.takeWhile fun q => p.2.timestamp = q.2.timestamp,
      q.2.timestamp = p.2.timestamp := by
    refine List.forall_mem_cons.2 ⟨rfl, fun q hq => ?_⟩
    exact Eq.symm (of_decide_eq_true (List.mem_takeWhile_imp (p := fun q : Source × DataEvent =>
      decide (p.2.timestamp = q.2.timestamp)) hq))
  refine ⟨(c', s.2 ++ [_]), by rw [InputCursor.popRound, if_pos hnext, hpop]; rfl,
    ⟨hinput.trans h.input, ?_, ?_, ?_⟩, ?_⟩
  · -- the group is what the cursor passes
    rw [← h.passed, hrest, hrest', List.flatten_append, List.flatten_singleton,
      List.append_assoc, List.cons_append, List.takeWhile_append_dropWhile]
  · refine h.popped.append_singleton (List.cons_ne_nil _ _)
      (fun q hq q' hq' => (hhead q hq).trans (hhead q' hq').symm) ?_
    intro g hg q hq q' hq'
    rw [hhead q' hq']
    exact h.closed g hg p (by rw [hrest]; exact Option.mem_some_self p) q hq
  · -- the group ends where the timestamp changes
    intro g hg q hq q' hq'
    rw [List.getLast?_concat] at hg
    obtain rfl := Option.mem_some_iff.1 hg
    rw [hhead q' hq']
    rw [hrest'] at hq
    have hnot := List.head?_dropWhile_not (fun q => p.2.timestamp = q.2.timestamp) rest
    rw [Option.mem_def.1 hq] at hnot
    simpa using hnot
  · rw [hrest, hrest']
    exact Nat.lt_succ_of_le (List.dropWhile_sublist _).length_le

/-- When `has_next` is false, nothing is to come. -/
theorem PoppedInv.timestampGroups {s : InputCursor × List (List (Source × DataEvent))}
    (h : PoppedInv events s) (hnext : ¬ s.1.hasNext = true) : TimestampGroups events s.2 := by
  have hpassed := h.passed
  rw [hasNext_iff, not_not] at hnext
  rw [hnext, List.append_nil] at hpassed
  exact ⟨hpassed, h.popped.ne_nil, h.popped.timestamp_eq, h.popped.timestamp_ne⟩

/-- **The popped groups are a partition of the input into its runs of equal timestamps.** -/
theorem popAll_groups (events : List (Source × DataEvent)) :
    ∃ groups, Returns (popAll events) (.ok groups) ∧ TimestampGroups events groups := by
  have hinit : PoppedInv events (⟨events, 0⟩, []) :=
    ⟨rfl, rfl, ⟨rfl, nofun, nofun, .nil⟩, nofun⟩
  refine iterate_spec (fun s => s.1.rest.length) (fun s hs => ?_) hinit
  by_cases hnext : s.1.hasNext = true
  · exact .inl (hs.popRound hnext)
  · exact .inr ⟨s.2, by rw [popRound, if_neg hnext], hs.timestampGroups hnext⟩

end InputCursor

end Svoe
