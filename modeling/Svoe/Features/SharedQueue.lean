import Svoe.Features.StreamTree
import Svoe.Transition.Basic

/-!
# Trade-volume-imbalance streams in one process

`_State` of `TradeVolumeImbFD` creates its `queue` in the class body, so all streams of a process
append to one queue and pop from it.  A stream adds a trade's volume when it comes in and takes it
away when it pops the trade; a trade that another stream popped stays in its sums, and a trade of
another stream that it pops is taken away from sums it was never in.

* `update_tradeVolumeImb` : a node of a stream tree pops from the queue and updates its sums.
* `ofStream_queue_of_expiresOwn` : a step that pops what the stream would pop alone leaves every
  stream's part of the queue as it would be alone.
* `ofStream_tviRun_eq_alone` : in a run of such steps every stream emits what it would emit alone.
-/

namespace Svoe

open Transition

/-! ### One update -/

/-- Whether a trade in the queue has left the window of an event. -/
def tviExpired (windowS : ℚ) (event e : TradeEvent) : Bool :=
  windowS < event.timestamp - e.timestamp

/-- The sums of a state when `popped` leave the window and an event comes in. -/
def TviState.update (state : TviState) (popped : List TradeEvent) (event : TradeEvent) : TviState :=
  (popped.foldl (fun state e => state.addVol e.side (-(e.price * e.amount))) state).addVol
    event.side (event.price * event.amount)

/-- The event that an update emits, from its updated sums. -/
def tviEmit (sampling : Option Window) (state : TviState) (event : TradeEvent) :
    Except PyError (TviState × Option Tvi) :=
  if state.buyVol + state.sellVol = 0 then .error .zeroDivision
  else
    let tvi := 2 * (state.buyVol - state.sellVol) / (state.buyVol + state.sellVol)
    match sampling with
    | none => .ok (state,
        some ⟨event.timestamp, event.receiptTimestamp, tvi, state.lastSamplingBucketTs⟩)
    | some bucket =>
      match getSamplingBucketTs event.timestamp bucket true with
      | .error e => .error e
      | .ok samplingBucketTs =>
        if state.lastSamplingBucketTs ≠ samplingBucketTs then
          .ok ({ state with lastSamplingBucketTs := samplingBucketTs },
            some ⟨event.timestamp, event.receiptTimestamp, tvi, samplingBucketTs⟩)
        else .ok (state, none)

theorem updateTvi_eq (sampling : Option Window) (windowS : ℚ) (queue : List TradeEvent)
    (state : TviState) (event : TradeEvent) :
    updateTvi sampling windowS queue state event =
      (tviEmit sampling (state.update
        ((queue ++ [event]).takeWhile (tviExpired windowS event)) event) event).map fun p =>
          ((queue ++ [event]).dropWhile (tviExpired windowS event), p.1, p.2) := by
  unfold updateTvi tviEmit TviState.update tviExpired
  dsimp only
  split_ifs with hzero
  · rfl
  · cases sampling with
    | none => rfl
    | some bucket =>
      dsimp only
      cases getSamplingBucketTs event.timestamp bucket true with
      | error e => rfl
      | ok samplingBucketTs =>
        dsimp only
        split_ifs <;> rfl

/-- A stream behind an event that makes it pop the trades `popped`, and what it emits: its state
is its `_State` and what `unique` has seen last.  An update that raises has changed the sums. -/
def tviStream (sampling : Option Window) (stream : TviState × Option Tvi)
    (popped : List TradeEvent) (event : TradeEvent) :
    (TviState × Option Tvi) × Except PyError (Option Tvi) :=
  match tviEmit sampling (stream.1.update popped event) event with
  | .error e => ((stream.1.update popped event, stream.2), .error e)
  | .ok (state, out) =>
    ((state, (Definition.unique stream.2 out).1), .ok (Definition.unique stream.2 out).2)

/-- **A node of `TradeVolumeImbFD`** pops what has left the window and emits an event. -/
theorem update_tradeVolumeImb (stddev : List ℚ → ℚ) (queue : List TradeEvent) (window : Window)
    (sampling : Option Window) (stream : TviState × Option Tvi) (event : TradeEvent) :
    (Definition.tradeVolumeImb window sampling).update stddev queue stream (.bare (.trade event)) =
      (tviStream sampling stream ((queue ++ [event]).takeWhile
          (tviExpired (convertStrToSeconds window) event)) event).2.map fun out =>
        ((queue ++ [event]).dropWhile (tviExpired (convertStrToSeconds window) event),
          (tviStream sampling stream ((queue ++ [event]).takeWhile
            (tviExpired (convertStrToSeconds window) event)) event).1, out.map .tvi) := by
  obtain ⟨state, seen⟩ := stream
  simp only [Definition.update, Elem.columns, updateTvi_eq, tviStream]
  cases tviEmit sampling (state.update ((queue ++ [event]).takeWhile
    (tviExpired (convertStrToSeconds window) event)) event) event <;> rfl

/-! ### The streams of a process -/

variable {ι : Type*} [DecidableEq ι]

/-- The parameters of `TradeVolumeImbFD.stream`. -/
structure TviParams where
  window : Window
  sampling : Option Window

/-- The class's queue and the streams.  With the trades of the queue stands the stream that
appended them, which no code reads. -/
structure TviProcess (ι : Type*) where
  queue : List (ι × TradeEvent)
  streams : ι → TviState × Option Tvi

/-- A process whose streams have got no event yet. -/
def TviProcess.init : TviProcess ι := ⟨[], fun _ => ({}, none)⟩

/-- The queue with the event that comes in. -/
def TviProcess.pushed (p : TviProcess ι) (a : ι × TradeEvent) : List (ι × TradeEvent) :=
  p.queue ++ [a]

/-- Whether a trade in the queue has left the window of a stream's event. -/
def expiredFor (params : ι → TviParams) (a q : ι × TradeEvent) : Bool :=
  tviExpired (convertStrToSeconds (params a.1).window) a.2 q.2

/-- An event in the upstream of a stream: the process behind it, and what the stream emits. -/
def tviEvent (params : ι → TviParams) (p : TviProcess ι) (a : ι × TradeEvent) :
    TviProcess ι × Except PyError (Option Tvi) :=
  let popped := (p.pushed a).takeWhile (expiredFor params a)
  let res := tviStream (params a.1).sampling (p.streams a.1) (popped.map Prod.snd) a.2
  (⟨(p.pushed a).dropWhile (expiredFor params a), Function.update p.streams a.1 res.1⟩, res.2)

/-- What is emitted in a run, with the stream that emits it. -/
def tviRun (params : ι → TviParams) (p : TviProcess ι) :
    List (ι × TradeEvent) → List (ι × Except PyError (Option Tvi))
  | [] => []
  | a :: as => (a.1, (tviEvent params p a).2) :: tviRun params (tviEvent params p a).1 as

/-- What belongs to one stream. -/
def ofStream {β : Type*} (i : ι) (l : List (ι × β)) : List (ι × β) := l.filter fun p => p.1 = i

/-- What an event pops is exactly what its stream would pop from the trades it appended itself. -/
def ExpiresOwn (params : ι → TviParams) (p : TviProcess ι) (a : ι × TradeEvent) : Prop :=
  (p.pushed a).takeWhile (expiredFor params a) =
    (ofStream a.1 (p.pushed a)).takeWhile (expiredFor params a)

instance (params : ι → TviParams) (p : TviProcess ι) (a : ι × TradeEvent) :
    Decidable (ExpiresOwn params p a) :=
  inferInstanceAs (Decidable (_ = _))

/-! ### Two runs -/

/-- A stream has the same state in both processes, and the same trades in their queues. -/
def SameStream (i : ι) (p p' : TviProcess ι) : Prop :=
  p.streams i = p'.streams i ∧ ofStream i p.queue = ofStream i p'.queue

/-- A process in which only one stream has got events. -/
def OnlyStream (i : ι) (p : TviProcess ι) : Prop := ofStream i p.queue = p.queue

variable {params : ι → TviParams} {p p' : TviProcess ι} {a : ι × TradeEvent} {i : ι}

theorem ofStream_pushed (h : a.1 = i) : ofStream i (p.pushed a) = ofStream i p.queue ++ [a] := by
  rw [TviProcess.pushed, ofStream, List.filter_append, List.filter_singleton]
  simp [ofStream, h]

theorem ofStream_pushed_of_ne (h : a.1 ≠ i) : ofStream i (p.pushed a) = ofStream i p.queue := by
  rw [TviProcess.pushed, ofStream, List.filter_append, List.filter_singleton]
  simp [ofStream, h]

/-- **A step that pops what its stream would pop alone** pops no trade of another stream, and
leaves of its own what it would leave alone. -/
theorem ofStream_queue_of_expiresOwn (h : ExpiresOwn params p a) (i : ι) :
    ofStream i (tviEvent params p a).1.queue =
      if a.1 = i then (ofStream i (p.pushed a)).dropWhile (expiredFor params a)
      else ofStream i p.queue := by
  set popped := (p.pushed a).takeWhile (expiredFor params a) with hpopped
  have hown : ∀ q ∈ popped, q.1 = a.1 := by
    intro q hq
    rw [hpopped, h] at hq
    simpa using (List.mem_filter.1 ((List.takeWhile_sublist _).subset hq)).2
  have hsplit : ofStream i (p.pushed a) =
      ofStream i popped ++ ofStream i ((p.pushed a).dropWhile (expiredFor params a)) := by
    rw [ofStream, ofStream, ofStream, ← List.filter_append, List.takeWhile_append_dropWhile]
  have hqueue : (tviEvent params p a).1.queue =
      (p.pushed a).dropWhile (expiredFor params a) := rfl
  rw [hqueue]
  split_ifs with hi
  · subst hi
    have hall : ofStream a.1 popped =
        (ofStream a.1 (p.pushed a)).takeWhile (expiredFor params a) := by
      rw [ofStream, List.filter_eq_self.2 fun q hq => decide_eq_true (hown q hq)]
      exact h
    rw [hall] at hsplit
    exact List.append_cancel_left (hsplit.symm.trans List.takeWhile_append_dropWhile.symm)
  · have hnone : ofStream i popped = [] :=
      List.filter_eq_nil_iff.2 fun q hq => by simpa [hown q hq] using hi
    rw [← ofStream_pushed_of_ne hi, hsplit, hnone, List.nil_append]

theorem streams_tviEvent_self (params : ι → TviParams) (p : TviProcess ι) (a : ι × TradeEvent) :
    (tviEvent params p a).1.streams a.1 =
      (tviStream (params a.1).sampling (p.streams a.1)
        (((p.pushed a).takeWhile (expiredFor params a)).map Prod.snd) a.2).1 :=
  Function.update_self ..

/-- An event of another stream changes nothing for a stream. -/
theorem SameStream.of_other (h : SameStream i p p') (hown : ExpiresOwn params p a)
    (hi : a.1 ≠ i) : SameStream i (tviEvent params p a).1 p' := by
  refine ⟨?_, ?_⟩
  · rw [← h.1]
    exact Function.update_of_ne (Ne.symm hi) _ _
  · rw [ofStream_queue_of_expiresOwn hown, if_neg hi, h.2]

theorem OnlyStream.init (i : ι) : OnlyStream i (.init : TviProcess ι) := List.filter_nil

theorem OnlyStream.pushed (h : OnlyStream i p) (hi : a.1 = i) :
    ofStream i (p.pushed a) = p.pushed a := by
  rw [ofStream_pushed hi, h, TviProcess.pushed]

/-- Alone, a stream pops its own trades. -/
theorem OnlyStream.expiresOwn (h : OnlyStream i p) (hi : a.1 = i) : ExpiresOwn params p a := by
  unfold ExpiresOwn
  rw [hi, h.pushed hi]

theorem OnlyStream.of_event (h : OnlyStream i p) (hi : a.1 = i) :
    OnlyStream i (tviEvent params p a).1 := by
  rw [OnlyStream, ofStream_queue_of_expiresOwn (h.expiresOwn hi), if_pos hi, h.pushed hi]
  rfl

/-- An event of the stream itself has the effect on it that it has alone. -/
theorem SameStream.of_own (h : SameStream i p p') (hown : ExpiresOwn params p a)
    (halone : OnlyStream i p') (hi : a.1 = i) :
    SameStream i (tviEvent params p a).1 (tviEvent params p' a).1 ∧
      (tviEvent params p a).2 = (tviEvent params p' a).2 := by
  subst hi
  have hpushed : ofStream a.1 (p.pushed a) = p'.pushed a := by
    rw [ofStream_pushed rfl, h.2, ← ofStream_pushed rfl, halone.pushed rfl]
  have hpop : (p.pushed a).takeWhile (expiredFor params a) =
      (p'.pushed a).takeWhile (expiredFor params a) := by
    rw [← hpushed]
    exact hown
  have hres : tviStream (params a.1).sampling (p.streams a.1)
      (((p.pushed a).takeWhile (expiredFor params a)).map Prod.snd) a.2 =
      tviStream (params a.1).sampling (p'.streams a.1)
        (((p'.pushed a).takeWhile (expiredFor params a)).map Prod.snd) a.2 := by
    rw [h.1, hpop]
  refine ⟨⟨?_, ?_⟩, congrArg (fun res => res.2) hres⟩
  · rw [streams_tviEvent_self, streams_tviEvent_self, hres]
  · rw [ofStream_queue_of_expiresOwn hown, ofStream_queue_of_expiresOwn (halone.expiresOwn rfl),
      if_pos rfl, if_pos rfl, hpushed, halone.pushed rfl]

theorem ofStream_tviRun (h : SameStream i p p') (halone : OnlyStream i p')
    {as : List (ι × TradeEvent)}
    (hall : AllSteps (fun p a => some (tviEvent params p a).1) (ExpiresOwn params) p as) :
    ofStream i (tviRun params p as) = tviRun params p' (ofStream i as) := by
  induction as generalizing p p' with
  | nil => rfl
  | cons a as ih =>
    obtain ⟨hown, hrest⟩ := (allSteps_cons_of_step rfl).1 hall
    by_cases hi : a.1 = i
    · obtain ⟨hsame, hout⟩ := h.of_own hown halone hi
      have hcons : ofStream i (a :: as) = a :: ofStream i as :=
        List.filter_cons_of_pos (by simpa using hi)
      rw [hcons, tviRun, tviRun, ← ih hsame (halone.of_event hi) hrest, hout]
      exact List.filter_cons_of_pos (by simpa using hi)
    · have hcons : ofStream i (a :: as) = ofStream i as :=
        List.filter_cons_of_neg (by simpa using hi)
      rw [hcons, ← ih (h.of_other hown hi) halone hrest]
      exact List.filter_cons_of_neg (by simpa using hi)

/-- **Streams that do not interfere.**  If every event of a run pops exactly the trades that its
stream would pop alone, every stream emits what it would emit as the only stream of the process,
fed with its own events. -/
theorem ofStream_tviRun_eq_alone (params : ι → TviParams) {as : List (ι × TradeEvent)}
    (hall : AllSteps (fun p a => some (tviEvent params p a).1) (ExpiresOwn params) .init as)
    (i : ι) : ofStream i (tviRun params .init as) = tviRun params .init (ofStream i as) :=
  ofStream_tviRun ⟨rfl, rfl⟩ (.init i) hall

/-! ### Two streams -/

/-- Two streams with a window of a minute. -/
def minuteStreams : Bool → TviParams := fun _ => ⟨⟨1, .m⟩, none⟩

/-- A trade at a time, of a volume. -/
def tradeAt (timestamp : ℚ) (side : TradeSide) (vol : ℚ) : TradeEvent :=
  ⟨timestamp, timestamp, side, vol, 1, none, none⟩

/-- The first stream pops its own trade before the second stream gets one. -/
theorem ofStream_tviRun_apart :
    ofStream true (tviRun minuteStreams .init
        [(false, tradeAt 0 .buy 1), (false, tradeAt 100 .buy 1), (true, tradeAt 100 .sell 2)]) =
      tviRun minuteStreams .init [(true, tradeAt 100 .sell 2)] :=
  ofStream_tviRun_eq_alone minuteStreams (by decide +kernel) true

/-- The first stream pops a trade of the second one and takes it away from its own sums. -/
theorem not_ofStream_tviRun_eq_alone :
    ofStream false (tviRun minuteStreams .init
        [(false, tradeAt 0 .buy 1), (true, tradeAt 0 .sell 2), (false, tradeAt 100 .buy 1)]) =
        [(false, .ok (some ⟨0, 0, 2, -1⟩)), (false, .ok (some ⟨100, 100, -6, -1⟩))] ∧
      tviRun minuteStreams .init [(false, tradeAt 0 .buy 1), (false, tradeAt 100 .buy 1)] =
        [(false, .ok (some ⟨0, 0, 2, -1⟩)), (false, .ok (some ⟨100, 100, 2, -1⟩))] := by
  decide +kernel

end Svoe
