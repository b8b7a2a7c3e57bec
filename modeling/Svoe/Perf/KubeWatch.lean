import Svoe.Perf.KubeEvents
import Svoe.Transition.Basic

/-!
# Watching the events of kubernetes

`KubeWatcher._watch_kube_events_blocking` lists the events once and then opens one stream after the
other, each from the resource version of the last message.  The API may end a stream at any time,
and may tell of a change more than once.

* `watchInv_step` : every step keeps that a prefix of the changes was seen.
* `watchKubeEvents_once` : the log gets every change at most once and in order, and can always
  catch up.
* `countsInv_watch` : each failed probe is counted once.
-/

namespace Svoe

namespace Perf

open Raising Transition

variable {ρ ε σ : Type} [DecidableEq ρ]

/-! ### The watcher -/

/-- The thread of the watcher and the API.  The API has the changes after the listing, each with
its resource version, and the number of those that the open stream has passed. -/
structure WatchState (ρ ε σ : Type) where
  running : Bool
  changes : List (ρ × ε)
  stream : Option ℕ
  seenResourceVersions : List ρ
  lastResourceVersion : ρ
  eventsLog : σ
  raised : Option PyError

/-- Before the first stream. -/
def WatchState.initial (listVersion : ρ) (eventsLog : σ) : WatchState ρ ε σ :=
  ⟨true, [], none, [], listVersion, eventsLog, none⟩

/-- What can happen. -/
inductive WatchAction (ρ ε : Type) where
  /-- The API gets a change. -/
  | change (message : ρ × ε)
  | openStream
  /-- The next message of the stream. -/
  | next
  /-- An old message of the stream comes again. -/
  | again (i : ℕ)
  /-- The stream ends, by `timeout_seconds` or before. -/
  | endStream
  /-- `KubeWatcher.stop`. -/
  | stop
  deriving DecidableEq, Repr

variable (updateState : ε → Raising σ PyError Unit)

/-- The body of the loop over the messages. -/
def onMessage (message : ρ × ε) (s : WatchState ρ ε σ) : WatchState ρ ε σ :=
  if s.running then
    let s := { s with lastResourceVersion := message.1 }
    if message.1 ∈ s.seenResourceVersions then s
    else
      let s := { s with seenResourceVersions := s.seenResourceVersions ++ [message.1] }
      match updateState message.2 s.eventsLog with
      | (.ok _, eventsLog) => { s with eventsLog }
      | (.error e, eventsLog) => { s with eventsLog, stream := none, raised := some e }
  else { s with stream := none }

/-- The number of changes up to a resource version. -/
def positionOf (listVersion : ρ) (changes : List (ρ × ε)) (version : ρ) : ℕ :=
  (listVersion :: changes.map Prod.fst).idxOf version

/-- One step.  The resource versions of the changes are new ones. -/
def watchStep (listVersion : ρ) (s : WatchState ρ ε σ) :
    WatchAction ρ ε → Option (WatchState ρ ε σ)
  | .change message =>
    if message.1 ∈ listVersion :: s.changes.map Prod.fst then none
    else some { s with changes := s.changes ++ [message] }
  | .openStream =>
    if s.running ∧ s.raised = none ∧ s.stream = none then
      some { s with stream := some (positionOf listVersion s.changes s.lastResourceVersion) }
    else none
  | .next =>
    s.stream.bind fun passed => (s.changes[passed]?).map fun message =>
      onMessage updateState message { s with stream := some (passed + 1) }
  | .again i =>
    s.stream.bind fun passed =>
      if i < passed then (s.changes[i]?).map fun message => onMessage updateState message s
      else none
  | .endStream => s.stream.map fun _ => { s with stream := none }
  | .stop => some { s with running := false }

/-! ### The changes that were seen -/

/-- The log after some events, one after the other, up to the first one that raises. -/
def updateStates (events : List (ρ × ε)) : Raising σ PyError Unit :=
  events.forM fun message => updateState message.2

/-- The first `seen` changes were seen, and the log has got just these. -/
structure WatchInv (listVersion : ρ) (eventsLog : σ) (seen : ℕ) (s : WatchState ρ ε σ) :
    Prop where
  nodup : (listVersion :: s.changes.map Prod.fst).Nodup
  seen_le : seen ≤ s.changes.length
  versions : s.seenResourceVersions = (s.changes.take seen).map Prod.fst
  last : s.lastResourceVersion ∈ listVersion :: s.seenResourceVersions
  stream : ∀ passed ∈ s.stream, passed ≤ seen ∧ s.raised = none
  log : updateStates updateState (s.changes.take seen) eventsLog =
    (match s.raised with | none => .ok () | some e => .error e, s.eventsLog)

variable {updateState} {listVersion : ρ} {eventsLog : σ} {s s' : WatchState ρ ε σ}
  {action : WatchAction ρ ε} {actions : List (WatchAction ρ ε)}

omit [DecidableEq ρ] in
theorem watchInv_initial (listVersion : ρ) (eventsLog : σ) :
    WatchInv updateState listVersion eventsLog 0 (.initial listVersion eventsLog) :=
  ⟨List.nodup_singleton _, le_rfl, rfl, List.mem_cons_self, nofun, rfl⟩

omit [DecidableEq ρ] in
theorem updateStates_snoc {events : List (ρ × ε)} {t : σ}
    (h : updateStates updateState events eventsLog = (.ok (), t)) (message : ρ × ε) :
    updateStates updateState (events ++ [message]) eventsLog = updateState message.2 t := by
  induction events generalizing eventsLog with
  | nil =>
    obtain rfl : eventsLog = t := congrArg Prod.snd h
    change (updateState message.2 >>= fun _ => pure ()) eventsLog = _
    rcases hu : updateState message.2 eventsLog with ⟨e | _, t⟩
    · exact bind_of_error hu
    · exact bind_of_ok hu
  | cons first events ih =>
    obtain ⟨_, u, hfirst, hrest⟩ := Raising.bind_eq_ok_iff.1 h
    exact (bind_of_ok hfirst).trans (ih hrest)

omit [DecidableEq ρ] in
/-- A prefix of events that do not raise does not raise. -/
theorem updateStates_take {events : List (ρ × ε)} {t : σ}
    (h : updateStates updateState events eventsLog = (.ok (), t)) (n : ℕ) :
    ∃ t', updateStates updateState (events.take n) eventsLog = (.ok (), t') := by
  induction events generalizing eventsLog n with
  | nil => exact ⟨eventsLog, by rw [List.take_nil]; rfl⟩
  | cons first events ih =>
    cases n with
    | zero => exact ⟨eventsLog, rfl⟩
    | succ n =>
      obtain ⟨_, u, hfirst, hrest⟩ := Raising.bind_eq_ok_iff.1 h
      obtain ⟨t', ht'⟩ := ih hrest n
      exact ⟨t', (bind_of_ok hfirst).trans ht'⟩

section OnMessage

variable {message : ρ × ε} {t : σ}

theorem onMessage_of_stopped (h : s.running = false) :
    onMessage updateState message s = { s with stream := none } := by
  rw [onMessage, h]
  rfl

theorem onMessage_of_mem (h : s.running = true) (hmem : message.1 ∈ s.seenResourceVersions) :
    onMessage updateState message s = { s with lastResourceVersion := message.1 } := by
  rw [onMessage, if_pos h]
  exact if_pos hmem

theorem onMessage_of_ok (h : s.running = true) (hmem : message.1 ∉ s.seenResourceVersions)
    (hu : updateState message.2 s.eventsLog = (.ok (), t)) :
    onMessage updateState message s =
      { s with
        lastResourceVersion := message.1
        seenResourceVersions := s.seenResourceVersions ++ [message.1]
        eventsLog := t } := by
  rw [onMessage, if_pos h]
  refine (if_neg hmem).trans ?_
  dsimp only
  rw [hu]

theorem onMessage_of_error (h : s.running = true) (hmem : message.1 ∉ s.seenResourceVersions)
    {e : PyError} (hu : updateState message.2 s.eventsLog = (.error e, t)) :
    onMessage updateState message s =
      { s with
        lastResourceVersion := message.1
        seenResourceVersions := s.seenResourceVersions ++ [message.1]
        eventsLog := t
        stream := none
        raised := some e } := by
  rw [onMessage, if_pos h]
  refine (if_neg hmem).trans ?_
  dsimp only
  rw [hu]

/-- The watcher does not touch what the API has. -/
@[simp] theorem changes_onMessage (message : ρ × ε) (s : WatchState ρ ε σ) :
    (onMessage updateState message s).changes = s.changes := by
  rcases Bool.eq_false_or_eq_true s.running with hrunning | hrunning
  · by_cases hmem : message.1 ∈ s.seenResourceVersions
    · rw [onMessage_of_mem hrunning hmem]
    · rcases hu : updateState message.2 s.eventsLog with ⟨e | _, t⟩
      · rw [onMessage_of_error hrunning hmem hu]
      · rw [onMessage_of_ok hrunning hmem hu]
  · rw [onMessage_of_stopped hrunning]

/-- After a message that does not raise the stream goes on. -/
theorem onMessage_frame (hrunning : s.running = true)
    (hraised : (onMessage updateState message s).raised = none) :
    (onMessage updateState message s).running = true ∧
      (onMessage updateState message s).stream = s.stream := by
  by_cases hmem : message.1 ∈ s.seenResourceVersions
  · rw [onMessage_of_mem hrunning hmem]
    exact ⟨hrunning, rfl⟩
  · rcases hu : updateState message.2 s.eventsLog with ⟨e | _, t⟩
    · rw [onMessage_of_error hrunning hmem hu] at hraised
      cases hraised
    · rw [onMessage_of_ok hrunning hmem hu]
      exact ⟨hrunning, rfl⟩

end OnMessage

namespace WatchInv

variable {seen : ℕ} {message : ρ × ε} {i passed : ℕ}

omit [DecidableEq ρ] in
/-- A change was seen if it is one of the prefix. -/
theorem mem_seen_iff (h : WatchInv updateState listVersion eventsLog seen s)
    (hi : s.changes[i]? = some message) :
    message.1 ∈ s.seenResourceVersions ↔ i < seen := by
  obtain ⟨hlt, rfl⟩ := List.getElem?_eq_some_iff.1 hi
  have hnodup := (List.nodup_cons.1 h.nodup).2
  have hle := h.seen_le
  rw [h.versions]
  constructor
  · intro hmem
    obtain ⟨p, hp, heq⟩ := List.mem_map.1 hmem
    obtain ⟨j, hj, rfl⟩ := List.mem_take_iff_getElem.1 hp
    have hj' : j < s.changes.length := by omega
    have hij := List.inj_on_of_nodup_map hnodup (List.getElem_mem hj') (List.getElem_mem hlt) heq
    rw [(List.Nodup.of_map _ hnodup).getElem_inj_iff] at hij
    omega
  · exact fun hseen => List.mem_map_of_mem (List.mem_take_iff_getElem.2 ⟨i, by omega, rfl⟩)

/-- A stream starts in the prefix. -/
theorem positionOf_le (h : WatchInv updateState listVersion eventsLog seen s) :
    positionOf listVersion s.changes s.lastResourceVersion ≤ seen := by
  have hlast := h.last
  rw [h.versions] at hlast
  rw [positionOf, ← List.take_append_drop seen s.changes, List.map_append, ← List.cons_append,
    List.idxOf_append_of_mem hlast]
  have hlt := List.idxOf_lt_length_of_mem hlast
  rw [List.length_cons, List.length_map, List.length_take] at hlt
  omega

/-- A message that was seen before changes the version only, that the next stream starts from. -/
theorem onMessage_of_lt (h : WatchInv updateState listVersion eventsLog seen s)
    (hi : s.changes[i]? = some message) (hseen : i < seen) (hraised : s.raised = none)
    (hpassed : passed ≤ seen) :
    WatchInv updateState listVersion eventsLog seen
      (onMessage updateState message { s with stream := some passed }) := by
  have hmem := (h.mem_seen_iff hi).2 hseen
  rcases Bool.eq_false_or_eq_true s.running with hrunning | hrunning
  · rw [onMessage_of_mem (s := { s with stream := some passed }) hrunning hmem]
    exact ⟨h.nodup, h.seen_le, h.versions, List.mem_cons_of_mem _ hmem,
      by rintro _ ⟨⟩; exact ⟨hpassed, hraised⟩, h.log⟩
  · rw [onMessage_of_stopped (s := { s with stream := some passed }) hrunning]
    exact ⟨h.nodup, h.seen_le, h.versions, h.last, nofun, h.log⟩

/-- The first message that was not seen. -/
theorem onMessage_of_eq (h : WatchInv updateState listVersion eventsLog seen s)
    (hi : s.changes[seen]? = some message) (hraised : s.raised = none)
    (hpassed : passed ≤ seen + 1) : ∃ seen',
      WatchInv updateState listVersion eventsLog seen'
        (onMessage updateState message { s with stream := some passed }) := by
  rcases Bool.eq_false_or_eq_true s.running with hrunning | hrunning
  · have hmem : message.1 ∉ s.seenResourceVersions := fun hmem =>
      lt_irrefl _ ((h.mem_seen_iff hi).1 hmem)
    obtain ⟨hlt, hmessage⟩ := List.getElem?_eq_some_iff.1 hi
    have htake : s.changes.take (seen + 1) = s.changes.take seen ++ [message] := by
      rw [List.take_succ_eq_append_getElem hlt, hmessage]
    have hlog := h.log
    rw [hraised] at hlog
    have hsnoc := updateStates_snoc hlog message
    rw [← htake] at hsnoc
    have hversions : s.seenResourceVersions ++ [message.1] =
        (s.changes.take (seen + 1)).map Prod.fst := by
      rw [htake, List.map_append, ← h.versions]
      rfl
    have hlast : message.1 ∈ listVersion :: (s.seenResourceVersions ++ [message.1]) := by simp
    refine ⟨seen + 1, ?_⟩
    rcases hu : updateState message.2 s.eventsLog with ⟨e | _, t⟩
    · rw [onMessage_of_error (s := { s with stream := some passed }) hrunning hmem hu]
      exact ⟨h.nodup, hlt, hversions, hlast, nofun, hsnoc.trans hu⟩
    · rw [onMessage_of_ok (s := { s with stream := some passed }) hrunning hmem hu]
      refine ⟨h.nodup, hlt, hversions, hlast, ?_, (hsnoc.trans hu).trans ?_⟩
      · rintro _ ⟨⟩
        exact ⟨hpassed, hraised⟩
      · simp only [hraised]
  · rw [onMessage_of_stopped (s := { s with stream := some passed }) hrunning]
    exact ⟨seen, h.nodup, h.seen_le, h.versions, h.last, nofun, h.log⟩

omit [DecidableEq ρ] in
/-- More changes do not concern what was seen. -/
theorem change (h : WatchInv updateState listVersion eventsLog seen s)
    (hnew : message.1 ∉ listVersion :: s.changes.map Prod.fst) :
    WatchInv updateState listVersion eventsLog seen
      { s with changes := s.changes ++ [message] } := by
  have htake : (s.changes ++ [message]).take seen = s.changes.take seen :=
    List.take_append_of_le_length h.seen_le
  refine ⟨?_, ?_, ?_, h.last, h.stream, ?_⟩
  · rw [List.map_append, ← List.cons_append]
    exact List.nodup_append.2 ⟨h.nodup, List.nodup_singleton _, fun a ha b hb heq =>
      hnew (List.mem_singleton.1 hb ▸ heq ▸ ha)⟩
  · exact h.seen_le.trans (by simp)
  · exact h.versions.trans (by rw [htake])
  · exact (congrArg (updateStates updateState · eventsLog) htake).trans h.log

end WatchInv

/-! ### Steps -/

/-- What a step can do. -/
theorem watchStep_cases (h : watchStep updateState listVersion s action = some s') :
    (∃ message, action = .change message ∧ message.1 ∉ listVersion :: s.changes.map Prod.fst ∧
        s' = { s with changes := s.changes ++ [message] }) ∨
      (action = .openStream ∧ s.raised = none ∧ s' =
        { s with stream := some (positionOf listVersion s.changes s.lastResourceVersion) }) ∨
      (∃ passed passed' i message, s.stream = some passed ∧ s.changes[i]? = some message ∧
        (i = passed ∧ passed' = passed + 1 ∨ i < passed ∧ passed' = passed) ∧
          s' = onMessage updateState message { s with stream := some passed' }) ∨
      s' = { s with stream := none } ∨ s' = { s with running := false } := by
  cases action with
  | change message =>
    rw [watchStep] at h
    split_ifs at h with hold
    exact .inl ⟨message, rfl, hold, (Option.some.inj h).symm⟩
  | openStream =>
    rw [watchStep] at h
    split_ifs at h with hopen
    exact .inr (.inl ⟨rfl, hopen.2.1, (Option.some.inj h).symm⟩)
  | next =>
    obtain ⟨passed, hpassed, hmap⟩ := Option.bind_eq_some_iff.1 h
    obtain ⟨message, hmessage, rfl⟩ := Option.map_eq_some_iff.1 hmap
    exact .inr (.inr (.inl ⟨passed, passed + 1, passed, message, hpassed, hmessage,
      .inl ⟨rfl, rfl⟩, rfl⟩))
  | again i =>
    obtain ⟨passed, hpassed, hmap⟩ := Option.bind_eq_some_iff.1 h
    split_ifs at hmap with hlt
    obtain ⟨message, hmessage, rfl⟩ := Option.map_eq_some_iff.1 hmap
    refine .inr (.inr (.inl ⟨passed, passed, i, message, hpassed, hmessage, .inr ⟨hlt, rfl⟩, ?_⟩))
    rw [← hpassed]
  | endStream =>
    obtain ⟨_, -, rfl⟩ := Option.map_eq_some_iff.1 h
    exact .inr (.inr (.inr (.inl rfl)))
  | stop => exact .inr (.inr (.inr (.inr (Option.some.inj h).symm)))

/-- Every step keeps the invariant. -/
theorem watchInv_step {seen : ℕ} (h : WatchInv updateState listVersion eventsLog seen s)
    (hstep : watchStep updateState listVersion s action = some s') :
    ∃ seen', WatchInv updateState listVersion eventsLog seen' s' := by
  obtain ⟨message, -, hnew, rfl⟩ | ⟨-, hraised, rfl⟩ |
    ⟨passed, passed', i, message, hstream, hi, hpassed, rfl⟩ | rfl | rfl := watchStep_cases hstep
  · exact ⟨seen, h.change hnew⟩
  · refine ⟨seen, h.nodup, h.seen_le, h.versions, h.last, ?_, h.log⟩
    rintro _ ⟨⟩
    exact ⟨h.positionOf_le, hraised⟩
  · obtain ⟨hle, hraised⟩ := h.stream passed hstream
    rcases lt_or_eq_of_le (show i ≤ seen by omega) with hlt | rfl
    · exact ⟨seen, h.onMessage_of_lt hi hlt hraised (by omega)⟩
    · exact h.onMessage_of_eq hi hraised (by omega)
  · exact ⟨seen, h.nodup, h.seen_le, h.versions, h.last, nofun, h.log⟩
  · exact ⟨seen, h.nodup, h.seen_le, h.versions, h.last, h.stream, h.log⟩

/-- Every run keeps the invariant. -/
theorem watchInv_of_run (h : run (watchStep updateState listVersion)
      (.initial listVersion eventsLog) actions = some s) :
    ∃ seen, WatchInv updateState listVersion eventsLog seen s :=
  invariant_of_run (I := fun s => ∃ seen, WatchInv updateState listVersion eventsLog seen s)
    (fun _ _ _ ⟨_, hs⟩ hstep => watchInv_step hs hstep)
    ⟨0, watchInv_initial listVersion eventsLog⟩ h

/-! ### Catching up -/

section CatchUp

variable {t : σ}

omit [DecidableEq ρ] in
/-- The thread is there as long as the events do not raise. -/
theorem WatchInv.raised_eq_none {seen : ℕ}
    (h : WatchInv updateState listVersion eventsLog seen s)
    (hok : updateStates updateState s.changes eventsLog = (.ok (), t)) : s.raised = none := by
  obtain ⟨t', ht'⟩ := updateStates_take hok seen
  cases hraised : s.raised with
  | none => rfl
  | some e =>
    have hlog := h.log
    rw [ht', hraised] at hlog
    cases hlog

/-- A stream that is not ended tells of all changes. -/
theorem exists_next {seen passed : ℕ} (h : WatchInv updateState listVersion eventsLog seen s)
    (hrunning : s.running = true) (hstream : s.stream = some passed)
    (hok : updateStates updateState s.changes eventsLog = (.ok (), t)) :
    ∃ s', run (watchStep updateState listVersion) s
        (List.replicate (s.changes.length - passed) .next) = some s' ∧
      s'.changes = s.changes ∧ s'.eventsLog = t := by
  obtain ⟨n, hn⟩ : ∃ n, n = s.changes.length - passed := ⟨_, rfl⟩
  have hle := h.stream passed hstream
  have hseen := h.seen_le
  induction n generalizing s seen passed with
  | zero =>
    obtain rfl : seen = s.changes.length := by omega
    have hlog := h.log
    rw [List.take_length, hok, h.raised_eq_none hok] at hlog
    rw [← hn]
    exact ⟨s, rfl, rfl, (congrArg Prod.snd hlog).symm⟩
  | succ n ih =>
    have hlt : passed < s.changes.length := by omega
    have hstep : watchStep updateState listVersion s .next =
        some (onMessage updateState s.changes[passed] { s with stream := some (passed + 1) }) := by
      rw [watchStep, hstream, Option.bind_some, List.getElem?_eq_getElem hlt]
      rfl
    obtain ⟨seen', h'⟩ := watchInv_step h hstep
    set s₁ := onMessage updateState s.changes[passed] { s with stream := some (passed + 1) }
      with hs₁
    have hchanges : s₁.changes = s.changes := changes_onMessage _ _
    have hok' : updateStates updateState s₁.changes eventsLog = (.ok (), t) := by
      rw [hchanges, hok]
    obtain ⟨hrunning', hstream'⟩ := onMessage_frame
      (s := { s with stream := some (passed + 1) }) hrunning (h'.raised_eq_none hok')
    obtain ⟨s', hrun, hs', hlog⟩ := ih h' hrunning' hstream' hok' (by rw [hchanges]; omega)
      (h'.stream _ hstream') h'.seen_le
    refine ⟨s', ?_, hs'.trans hchanges, hlog⟩
    rw [← hn, List.replicate_succ]
    rw [hchanges, show s.changes.length - (passed + 1) = n by omega] at hrun
    exact run_cons_eq_some_iff.2 ⟨s₁, hstep, hrun⟩

/-- The thread can tell the log of all changes, if none of them raises. -/
theorem exists_caughtUp {seen : ℕ} (h : WatchInv updateState listVersion eventsLog seen s)
    (hrunning : s.running = true)
    (hok : updateStates updateState s.changes eventsLog = (.ok (), t)) :
    ∃ actions s', (∀ action ∈ actions, action = .openStream ∨ action = .next) ∧
      run (watchStep updateState listVersion) s actions = some s' ∧
        s'.changes = s.changes ∧ s'.eventsLog = t := by
  cases hstream : s.stream with
  | some passed =>
    obtain ⟨s', hrun, hs'⟩ := exists_next h hrunning hstream hok
    exact ⟨_, s', fun action hmem => .inr (List.eq_of_mem_replicate hmem), hrun, hs'⟩
  | none =>
    have hopen : watchStep updateState listVersion s .openStream = some { s with
        stream := some (positionOf listVersion s.changes s.lastResourceVersion) } :=
      if_pos ⟨hrunning, h.raised_eq_none hok, hstream⟩
    obtain ⟨seen', h'⟩ := watchInv_step h hopen
    obtain ⟨s', hrun, hs'⟩ := exists_next h' hrunning rfl hok
    refine ⟨_ :: _, s', ?_, run_cons_eq_some_iff.2 ⟨_, hopen, hrun⟩, hs'⟩
    exact List.forall_mem_cons.2 ⟨.inl rfl, fun action hmem =>
      .inr (List.eq_of_mem_replicate hmem)⟩

end CatchUp

/-- **Every change is logged once**: wherever the streams end, and whatever is told of again, the log
has got a prefix of the changes, in their order, up to the first one that raises.  A watcher that is
not stopped gets to the last change by the streams alone, if none raises. -/
theorem watchKubeEvents_once (h : run (watchStep updateState listVersion)
      (.initial listVersion eventsLog) actions = some s) :
    (∃ seen ≤ s.changes.length,
      s.seenResourceVersions = (s.changes.take seen).map Prod.fst ∧
        updateStates updateState (s.changes.take seen) eventsLog =
          (match s.raised with | none => .ok () | some e => .error e, s.eventsLog)) ∧
      ∀ t, s.running = true → updateStates updateState s.changes eventsLog = (.ok (), t) →
        ∃ actions' s', (∀ action ∈ actions', action = .openStream ∨ action = .next) ∧
          run (watchStep updateState listVersion) s actions' = some s' ∧
            s'.changes = s.changes ∧ s'.eventsLog = t := by
  obtain ⟨seen, hs⟩ := watchInv_of_run h
  exact ⟨⟨seen, hs.seen_le, hs.versions, hs.log⟩, fun t hrunning hok =>
    exists_caughtUp hs hrunning hok⟩

/-- A change of an event about a pod. -/
def killing (count : ℕ) : RawEvent :=
  .kube ⟨"MODIFIED", "Event", some "Killing", "Stopping container redis", some count, "Pod",
    "data-feed", none, none⟩

/-- Two changes, the first of which is told of three times. -/
def restarts : List (WatchAction String RawEvent) :=
  [.change ("101", killing 1), .openStream, .next, .again 0, .endStream, .change ("102", killing 2),
    .openStream, .again 0, .next, .again 0, .endStream, .openStream]

theorem watchKubeEvents_once_restarts :
    ∃ s, run (watchStep Perf.updateState "100") (.initial "100" .initial) restarts = some s ∧
      s.eventsLog.called.length = 2 ∧
      ((∃ seen ≤ s.changes.length,
        s.seenResourceVersions = (s.changes.take seen).map Prod.fst ∧
          updateStates Perf.updateState (s.changes.take seen) .initial =
            (match s.raised with | none => .ok () | some e => .error e, s.eventsLog)) ∧
        ∀ t, s.running = true → updateStates Perf.updateState s.changes .initial = (.ok (), t) →
          ∃ actions' s', (∀ action ∈ actions', action = .openStream ∨ action = .next) ∧
            run (watchStep Perf.updateState "100") s actions' = some s' ∧
              s'.changes = s.changes ∧ s'.eventsLog = t) :=
  ⟨_, rfl, rfl, watchKubeEvents_once (show run _ _ restarts = some _ from rfl)⟩

/-! ### Failed probes -/

omit [DecidableEq ρ] in
theorem eventsLog_updateStates {events : List (ρ × RawEvent)} {t : PodKubeEventsLog}
    (h : updateStates Perf.updateState events .initial = (.ok (), t)) :
    t = logAll (events.map Prod.snd) := by
  have hfold : ∀ {s}, updateStates Perf.updateState events s = (.ok (), t) →
      t = (events.map Prod.snd).foldl (fun s event => (Perf.updateState event s).2) s := by
    clear h
    induction events with
    | nil => exact fun h => (congrArg Prod.snd h).symm
    | cons first events ih =>
      intro s h
      obtain ⟨_, u, hfirst, hrest⟩ := Raising.bind_eq_ok_iff.1 h
      have hstep : (Perf.updateState first.2 s).2 = u := congrArg Prod.snd hfirst
      rw [ih hrest, List.map_cons, List.foldl_cons, hstep]
  exact hfold h

/-- Each failed probe is counted once, however often the API tells of it. -/
theorem countsInv_watch {s : WatchState ρ RawEvent PodKubeEventsLog}
    {actions : List (WatchAction ρ RawEvent)}
    (h : run (watchStep Perf.updateState listVersion) (.initial listVersion .initial) actions =
      some s) (hraised : s.raised = none) :
    ∃ seen ≤ s.changes.length,
      s.seenResourceVersions = (s.changes.take seen).map Prod.fst ∧
        CountsInv (((s.changes.take seen).map Prod.snd).filterMap unhealthyEvent)
          s.eventsLog := by
  obtain ⟨seen, hs⟩ := watchInv_of_run h
  have hlog := hs.log
  rw [hraised] at hlog
  refine ⟨seen, hs.seen_le, hs.versions, ?_⟩
  rw [eventsLog_updateStates hlog]
  exact countsInv_logAll _

end Perf

end Svoe
