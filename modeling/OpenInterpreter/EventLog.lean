import Mathlib.Data.List.Infix
import OpenInterpreter.Interleaving

/-! The event log of a process: `exec-server/src/process.rs`. The steps of a call are what it does
under the lock, and a subscriber receives without it. The channel is the list of the messages sent;
a receiver has its place in it. -/

namespace OpenInterpreter.EventLog

open Interleaving List Option

inductive ExecOutputStream where
  | stdout
  | stderr
  | pty
  deriving DecidableEq

inductive ExecProcessEvent where
  | output (seq : Nat) (stream : ExecOutputStream) (chunk : List UInt8)
  | exited (seq : Nat) (exitCode : Int) (sandboxDenied : Option Bool)
  | closed (seq : Nat)
  | failed (message : String)
  deriving DecidableEq

def ExecProcessEvent.retainedLen : ExecProcessEvent → Nat
  | .output _ _ chunk => chunk.length
  | .failed message => message.utf8ByteSize
  | .exited .. | .closed _ => 0

structure ExecProcessEventHistory where
  events : List ExecProcessEvent := []
  retainedBytes : Nat := 0
  deriving DecidableEq

structure ExecProcessEventLog where
  locked : Bool := false
  history : ExecProcessEventHistory := {}
  sent : List ExecProcessEvent := []
  published : List ExecProcessEvent := []
  deriving DecidableEq

/-- `liveRx` is the number of messages sent before the next one to receive live. -/
structure ExecProcessEventReceiver where
  replay : List ExecProcessEvent
  liveRx : Nat
  received : List ExecProcessEvent := []
  deriving DecidableEq

def ExecProcessEventReceiver.recv (receiver : ExecProcessEventReceiver)
    (sent : List ExecProcessEvent) : Option ExecProcessEventReceiver :=
  match receiver.replay with
  | event :: replay => some { receiver with replay, received := receiver.received ++ [event] }
  | [] => sent[receiver.liveRx]?.map fun event =>
    { receiver with liveRx := receiver.liveRx + 1, received := receiver.received ++ [event] }

def ExecProcessEventReceiver.waiting (receiver : ExecProcessEventReceiver)
    (sent : List ExecProcessEvent) : List ExecProcessEvent :=
  receiver.replay ++ sent.drop receiver.liveRx

inductive Call where
  | publish (event : ExecProcessEvent)
  | subscribe

inductive Stage where
  | publishing (event : ExecProcessEvent)
  | sending (event : ExecProcessEvent)
  | subscribing
  | copying (liveRx : Nat)
  | receiving (receiver : ExecProcessEventReceiver)
  | returned
  deriving DecidableEq

def start : Call → Stage
  | .publish event => .publishing event
  | .subscribe => .subscribing

def Stage.locks : Stage → Bool
  | .sending _ | .copying _ => true
  | _ => false

variable (eventCapacity byteCapacity : Nat)

/-- The eviction loop of `publish`. -/
def evict : List ExecProcessEvent → Nat → ExecProcessEventHistory
  | [], retainedBytes => ⟨[], retainedBytes⟩
  | evicted :: rest, retainedBytes =>
    if eventCapacity < (evicted :: rest).length ∨ byteCapacity < retainedBytes then
      evict rest (retainedBytes - evicted.retainedLen)
    else ⟨evicted :: rest, retainedBytes⟩

def record (history : ExecProcessEventHistory) (event : ExecProcessEvent) :
    ExecProcessEventHistory :=
  evict eventCapacity byteCapacity (history.events ++ [event])
    (history.retainedBytes + event.retainedLen)

def step (log : ExecProcessEventLog) : Stage → Unit → Option (ExecProcessEventLog × Stage)
  | .publishing event, _ =>
    if log.locked then none
    else some ({ log with
      locked := true
      history := record eventCapacity byteCapacity log.history event
      published := log.published ++ [event] }, .sending event)
  | .sending event, _ =>
    some ({ log with locked := false, sent := log.sent ++ [event] }, .returned)
  | .subscribing, _ =>
    if log.locked then none else some ({ log with locked := true }, .copying log.sent.length)
  | .copying liveRx, _ =>
    some ({ log with locked := false }, .receiving { replay := log.history.events, liveRx })
  | .receiving receiver, _ => (receiver.recv log.sent).map fun next => (log, .receiving next)
  | .returned, _ => none

def retainedSize : List ExecProcessEvent → Nat
  | [] => 0
  | event :: rest => event.retainedLen + retainedSize rest

variable (events : List ExecProcessEvent)

theorem retainedSize_concat (event : ExecProcessEvent) :
    retainedSize (events ++ [event]) = retainedSize events + event.retainedLen := by
  induction events with
  | nil => simp [retainedSize]
  | cons first rest ih => simp [retainedSize, ih, Nat.add_assoc]

def Fits (events : List ExecProcessEvent) : Prop :=
  events.length ≤ eventCapacity ∧ retainedSize events ≤ byteCapacity

/-- A history holds the longest suffix that fits, and the number of its bytes. -/
structure Retains (published : List ExecProcessEvent) (history : ExecProcessEventHistory) :
    Prop where
  suffix : history.events <:+ published
  fits : Fits eventCapacity byteCapacity history.events
  longest : ∀ events, events <:+ published → Fits eventCapacity byteCapacity events →
    events <:+ history.events
  counted : history.retainedBytes = retainedSize history.events

inductive Step (log : ExecProcessEventLog) : Stage → ExecProcessEventLog → Stage → Prop
  | record (event : ExecProcessEvent) (free : log.locked = false) :
    Step log (.publishing event) { log with
      locked := true
      history := EventLog.record eventCapacity byteCapacity log.history event
      published := log.published ++ [event] } (.sending event)
  | send (event : ExecProcessEvent) :
    Step log (.sending event) { log with locked := false, sent := log.sent ++ [event] } .returned
  | listen (free : log.locked = false) :
    Step log .subscribing { log with locked := true } (.copying log.sent.length)
  | copy (liveRx : Nat) :
    Step log (.copying liveRx) { log with locked := false }
      (.receiving { replay := log.history.events, liveRx })
  | recv (receiver next : ExecProcessEventReceiver) (received : receiver.recv log.sent = some next) :
    Step log (.receiving receiver) log (.receiving next)

variable {eventCapacity byteCapacity}

theorem retains_evict :
    Retains eventCapacity byteCapacity events
      (evict eventCapacity byteCapacity events (retainedSize events)) := by
  induction events with
  | nil => exact ⟨suffix_rfl, ⟨Nat.zero_le _, Nat.zero_le _⟩, fun _ suffix _ => suffix, rfl⟩
  | cons evicted rest ih =>
    rw [evict]
    split
    · rw [retainedSize, Nat.add_sub_cancel_left]
      refine ⟨ih.suffix.trans (suffix_cons _ _), ih.fits, fun events suffix fits => ?_, ih.counted⟩
      rcases suffix_cons_iff.mp suffix with rfl | within
      · have := fits.1
        have := fits.2
        omega
      · exact ih.longest events within fits
    · rename_i within
      rw [not_or, Nat.not_lt, Nat.not_lt] at within
      exact ⟨suffix_rfl, within, fun _ suffix _ => suffix, rfl⟩

theorem Retains.record {published : List ExecProcessEvent} {history : ExecProcessEventHistory}
    (retains : Retains eventCapacity byteCapacity published history) (event : ExecProcessEvent) :
    Retains eventCapacity byteCapacity (published ++ [event])
      (record eventCapacity byteCapacity history event) := by
  rw [EventLog.record, retains.counted, ← retainedSize_concat]
  have evicted : Retains eventCapacity byteCapacity _ _ := retains_evict (history.events ++ [event])
  refine ⟨evicted.suffix.trans (suffix_append_self_iff.mpr retains.suffix), evicted.fits,
    fun events suffix fits => ?_, evicted.counted⟩
  rcases suffix_concat_iff.mp suffix with rfl | ⟨earlier, rfl, within⟩
  · exact nil_suffix
  · rw [Fits, length_append, retainedSize_concat] at fits
    have kept := retains.longest earlier within ⟨by omega, by omega⟩
    exact evicted.longest _ (suffix_append_self_iff.mpr kept)
      (by simpa [Fits, retainedSize_concat] using fits)

structure Gapless (sent : List ExecProcessEvent) (receiver : ExecProcessEventReceiver) : Prop where
  place : receiver.liveRx ≤ sent.length
  suffix : receiver.received ++ receiver.replay ++ sent.drop receiver.liveRx <:+ sent

variable {sent : List ExecProcessEvent}

theorem Gapless.recv {receiver next : ExecProcessEventReceiver}
    (gapless : Gapless sent receiver) (received : receiver.recv sent = some next) :
    Gapless sent next := by
  have suffix := gapless.suffix
  rw [ExecProcessEventReceiver.recv] at received
  split at received
  · rename_i event replay waiting
    cases received
    rw [waiting] at suffix
    exact ⟨gapless.place, by simpa using suffix⟩
  · rename_i waiting
    obtain ⟨event, live, rfl⟩ := map_eq_some_iff.mp received
    have inside := (List.getElem?_eq_some_iff.mp live).1
    refine ⟨inside, ?_⟩
    rw [drop_eq_getElem_cons inside, (List.getElem?_eq_some_iff.mp live).2] at suffix
    simpa [waiting] using suffix

theorem Gapless.send {receiver : ExecProcessEventReceiver}
    (gapless : Gapless sent receiver) (event : ExecProcessEvent) :
    Gapless (sent ++ [event]) receiver := by
  refine ⟨gapless.place.trans (by simp), ?_⟩
  rw [drop_append_of_le_length gapless.place, ← append_assoc]
  exact suffix_append_self_iff.mpr gapless.suffix

def Own (log : ExecProcessEventLog) : Stage → Prop
  | .sending event => log.locked ∧ log.published = log.sent ++ [event]
  | .copying liveRx => log.locked ∧ log.published = log.sent ∧ liveRx = log.sent.length
  | .receiving receiver => Gapless log.sent receiver
  | _ => True

theorem Own.locked {log : ExecProcessEventLog} {stage : Stage} (own : Own log stage)
    (locks : stage.locks) : log.locked = true := by
  cases stage with
  | sending | copying => exact own.1
  | _ => cases locks

theorem step_cases {log after : ExecProcessEventLog} {stage target : Stage} {input : Unit}
    (stepped : step eventCapacity byteCapacity log stage input = some (after, target)) :
    Step eventCapacity byteCapacity log stage after target := by
  cases stage with
  | publishing | subscribing =>
    simp only [step, ite_none_left_eq_some, Bool.not_eq_true] at stepped
    obtain ⟨free, same⟩ := stepped
    cases same
    constructor
    exact free
  | sending | copying | returned =>
    cases stepped
    try constructor
  | receiving receiver =>
    obtain ⟨next, received, same⟩ := map_eq_some_iff.mp stepped
    cases same
    exact .recv receiver next received

theorem invariant : Invariant (step eventCapacity byteCapacity) start
    (fun log _ => Retains eventCapacity byteCapacity log.published log.history ∧
      (log.locked = false → log.published = log.sent))
    (fun log _ => Own log) (fun stage other => ¬ (stage.locks ∧ other.locks)) where
  symmetric stage other apart both := apart both.symm
  start_own log history call _ := by cases call <;> trivial
  start_apart log history call other _ both := by cases call <;> cases both.1
  step_shared log history stage input after target shared own stepped := by
    cases step_cases stepped with
    | record event free => exact ⟨shared.1.record event, fun unlocked => nomatch unlocked⟩
    | send event => exact ⟨shared.1, fun _ => own.2⟩
    | listen free => exact ⟨shared.1, fun unlocked => nomatch unlocked⟩
    | copy liveRx => exact ⟨shared.1, fun _ => own.2.1⟩
    | recv => exact shared
  step_own log history stage input after target shared own stepped := by
    cases step_cases stepped with
    | record event free => exact ⟨rfl, congrArg (· ++ [event]) (shared.2 free)⟩
    | send event => trivial
    | listen free => exact ⟨rfl, shared.2 free, rfl⟩
    | copy liveRx =>
      obtain ⟨_, same, rfl⟩ := own
      exact ⟨Nat.le_refl _, by simpa [same] using shared.1.suffix⟩
    | recv receiver next received => exact Gapless.recv own received
  step_other log history stage input after target other shared own ownOther apart stepped := by
    cases step_cases stepped with
    | record event free | listen free =>
      cases other with
      | sending | copying => exact absurd (ownOther.locked rfl) (by simp [free])
      | _ => exact ownOther
    | send event =>
      cases other with
      | sending | copying => exact absurd ⟨rfl, rfl⟩ apart
      | receiving receiver => exact Gapless.send ownOther event
      | _ => trivial
    | copy liveRx =>
      cases other with
      | sending | copying => exact absurd ⟨rfl, rfl⟩ apart
      | _ => exact ownOther
    | recv => exact ownOther
  step_apart log history stage input after target other shared own ownOther apart stepped := by
    rintro ⟨targetLocks, otherLocks⟩
    cases step_cases stepped with
    | record event free | listen free => simp [ownOther.locked otherLocks] at free
    | send | copy | recv => cases targetLocks

theorem recv_of_waiting {receiver : ExecProcessEventReceiver} {event : ExecProcessEvent}
    {rest : List ExecProcessEvent} (waits : receiver.waiting sent = event :: rest) :
    ∃ next, receiver.recv sent = some next ∧ next.waiting sent = rest ∧
      next.received = receiver.received ++ [event] := by
  unfold ExecProcessEventReceiver.waiting at waits ⊢
  cases replay : receiver.replay with
  | cons first replay =>
    rw [replay] at waits
    cases waits
    exact ⟨_, by rw [ExecProcessEventReceiver.recv, replay], rfl, rfl⟩
  | nil =>
    rw [replay, nil_append] at waits
    have live : sent[receiver.liveRx]? = some event := by rw [← head?_drop, waits, head?_cons]
    refine ⟨_, by rw [ExecProcessEventReceiver.recv, replay, live, Option.map_some], ?_, rfl⟩
    rw [nil_append, ← tail_drop, waits, tail_cons]

/-- A subscriber that goes on receiving gets all that waits for it, in order. -/
theorem receives_rest {world : World ExecProcessEventLog Stage Unit} {index : Nat}
    {receiver : ExecProcessEventReceiver}
    (present : world.locals[index]? = some (.receiving receiver)) :
    ∃ last final, run (step eventCapacity byteCapacity) start world
        (replicate (receiver.waiting world.shared.sent).length (.act index ())) = some last ∧
      last.locals[index]? = some (.receiving final) ∧
      final.received = receiver.received ++ receiver.waiting world.shared.sent := by
  generalize waits : receiver.waiting world.shared.sent = events
  induction events generalizing world receiver with
  | nil => exact ⟨world, receiver, rfl, present, (append_nil _).symm⟩
  | cons event rest ih =>
    obtain ⟨next, received, others, one⟩ := recv_of_waiting waits
    have stepped : step eventCapacity byteCapacity world.shared (.receiving receiver) () =
        some (world.shared, .receiving next) := by rw [step, received, Option.map_some]
    obtain ⟨after, moved, shared, -, there⟩ := move_act start present stepped
    obtain ⟨last, final, ran, found, all⟩ := ih there (shared ▸ others)
    refine ⟨last, final, ?_, found, by rw [all, one, append_assoc, singleton_append]⟩
    rw [length_cons, replicate_succ, run, foldlM_cons, moved]
    exact ran

/-- In every run the history holds the longest suffix of the published events that fits, and each
subscriber receives a suffix of the events sent, which are the published ones when the lock is
free. -/
theorem subscribers_see_suffix (eventCapacity byteCapacity : Nat) (moves : List (Move Call Unit))
    (last : World ExecProcessEventLog Stage Unit)
    (ran : run (step eventCapacity byteCapacity) start { shared := {} } moves = some last) :
    Retains eventCapacity byteCapacity last.shared.published last.shared.history ∧
      (last.shared.locked = false → last.shared.published = last.shared.sent) ∧
      ∀ receiver, .receiving receiver ∈ last.locals →
        receiver.received ++ receiver.replay ++ last.shared.sent.drop receiver.liveRx <:+
          last.shared.sent := by
  have holds := invariant.holds_of_run ⟨retains_evict [], fun _ => rfl⟩ moves ran
  refine ⟨holds.shared.1, holds.shared.2, fun receiver present => ?_⟩
  obtain ⟨index, located⟩ := mem_iff_getElem?.mp present
  exact (holds.each index _ located).suffix

def replayedThenLive : List (Move Call Unit) :=
  [.enter (.publish (.closed 1)), .act 0 (), .act 0 (), .enter .subscribe, .act 1 (), .act 1 (),
    .enter (.publish (.closed 2)), .act 2 (), .act 2 (), .act 1 (), .act 1 ()]

theorem replayed_then_live :
    ∃ last, run (step 4 64) start { shared := {} } replayedThenLive = some last ∧
      .receiving ⟨[], 2, [.closed 1, .closed 2]⟩ ∈ last.locals ∧
      Retains 4 64 [.closed 1, .closed 2] last.shared.history :=
  ⟨_, rfl, by decide, (subscribers_see_suffix 4 64 replayedThenLive _ rfl).1⟩

end OpenInterpreter.EventLog
