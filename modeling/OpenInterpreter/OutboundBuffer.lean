import Mathlib.Data.List.Induction
import Mathlib.Data.Prod.Lex
import OpenInterpreter.KeyedList
import OpenInterpreter.RemoteControl

/-! The replay buffer of `remote_control/websocket.rs`: envelopes wait until they are
acknowledged. -/

namespace OpenInterpreter.OutboundBuffer

open KeyedList RemoteControl List Option

section

variable {κ β : Type} [DecidableEq κ]

variable (queues : List (κ × List β))

def queue (key : κ) : List β := (get key queues).getD []

def waiting : List β := queues.flatMap Prod.snd

theorem queue_insert (key other : κ) (items : List β) :
    queue (KeyedList.insert key items queues) other =
      if key = other then items else queue queues other := by
  rw [queue, get_insert]
  split <;> rfl

theorem queue_remove (key other : κ) :
    queue (remove key queues) other = if key = other then [] else queue queues other := by
  rw [queue, get_remove]
  split <;> rfl

theorem waiting_insert (key : κ) (items : List β) :
    (waiting (KeyedList.insert key items queues)).length + (queue queues key).length =
      (waiting queues).length + items.length := by
  induction queues with
  | nil =>
    change (items ++ []).length + 0 = 0 + items.length
    rw [append_nil, Nat.add_comm]
  | cons entry rest ih =>
    rw [KeyedList.insert, queue, get_cons, waiting, waiting]
    split
    · simp only [flatMap_cons, length_append, getD_some]
      omega
    · rw [← queue]
      simp only [flatMap_cons, length_append, waiting] at ih ⊢
      omega

variable {queues : List (κ × List β)}

theorem waiting_remove (distinct : (keys queues).Nodup) (key : κ) :
    (waiting (remove key queues)).length + (queue queues key).length = (waiting queues).length := by
  induction queues with
  | nil => rfl
  | cons entry rest ih =>
    rw [KeyedList.keys_cons, nodup_cons] at distinct
    have later := ih distinct.2
    rw [remove, filter_cons, ← remove, queue, get_cons]
    by_cases here : entry.1 = key
    · have absent : get key rest = none := (get_eq_none key rest).mpr (here ▸ distinct.1)
      rw [queue, absent] at later
      simp only [here, waiting, flatMap_cons, length_append, ne_eq, not_true_eq_false, decide_false,
        Bool.false_eq_true, if_false, if_true, getD_some, getD_none, length_nil] at later ⊢
      omega
    · rw [if_pos (by simpa using here), if_neg here, ← queue]
      simp only [waiting, flatMap_cons, length_append] at later ⊢
      omega

theorem queue_length_le (queues : List (κ × List β)) (key : κ) :
    (queue queues key).length ≤ (waiting queues).length := by
  have emptied := waiting_insert queues key []
  rw [length_nil] at emptied
  omega

def setQueue (key : κ) (items : List β) (queues : List (κ × List β)) : List (κ × List β) :=
  if items = [] then remove key queues else KeyedList.insert key items queues

theorem queue_setQueue (queues : List (κ × List β)) (key other : κ) (items : List β) :
    queue (setQueue key items queues) other = if key = other then items else queue queues other := by
  rw [setQueue]
  split
  · rename_i empty
    rw [queue_remove, empty]
  · rw [queue_insert]

theorem waiting_setQueue (distinct : (keys queues).Nodup) (key : κ) (items : List β) :
    (waiting (setQueue key items queues)).length + (queue queues key).length =
      (waiting queues).length + items.length := by
  rw [setQueue]
  split
  · rename_i empty
    rw [waiting_remove distinct, empty, length_nil, Nat.add_zero]
  · exact waiting_insert queues key items

theorem nodup_setQueue (distinct : (keys queues).Nodup) (key : κ) (items : List β) :
    (keys (setQueue key items queues)).Nodup := by
  rw [setQueue]
  split
  · exact nodup_remove key distinct
  · exact nodup_insert key items distinct

end

variable {Message : Type}

structure BoundedOutboundBuffer (Message : Type) where
  bufferByStream : List ((ClientId × StreamId) × List (ServerEnvelope Message)) := []
  used : Nat := 0

def usizeMax : Nat := 0xFFFFFFFFFFFFFFFF

variable (envelope : ServerEnvelope Message)

def envelopeCursor : Nat ×ₗ Nat :=
  toLex (envelope.seqId, envelope.event.segmentId.getD 0)

def streamOf : ClientId × StreamId :=
  (envelope.clientId, envelope.streamId)

namespace BoundedOutboundBuffer

def insert (buffer : BoundedOutboundBuffer Message) (envelope : ServerEnvelope Message) :
    BoundedOutboundBuffer Message where
  bufferByStream := KeyedList.insert (streamOf envelope)
    (queue buffer.bufferByStream (streamOf envelope) ++ [envelope]) buffer.bufferByStream
  used := buffer.used + 1

/-- `VecDeque::retain` with the count of what is dropped; none when the count would underflow. -/
def retain (acked : Nat ×ₗ Nat) : List (ServerEnvelope Message) → Nat →
    Option (List (ServerEnvelope Message) × Nat)
  | [], used => some ([], used)
  | envelope :: rest, used =>
    if envelopeCursor envelope ≤ acked then
      if used = 0 then none else retain acked rest (used - 1)
    else (retain acked rest used).map fun (kept, used) => (envelope :: kept, used)

def ack (buffer : BoundedOutboundBuffer Message) (clientId : ClientId) (streamId : StreamId)
    (ackedSeqId : Nat) (ackedSegmentId : Option Nat) : Option (BoundedOutboundBuffer Message) :=
  match get (clientId, streamId) buffer.bufferByStream with
  | none => some buffer
  | some envelopes =>
    (retain (toLex (ackedSeqId, ackedSegmentId.getD usizeMax)) envelopes buffer.used).map
      fun (kept, used) => ⟨setQueue (clientId, streamId) kept buffer.bufferByStream, used⟩

def serverEnvelopes (buffer : BoundedOutboundBuffer Message) : List (ServerEnvelope Message) :=
  waiting buffer.bufferByStream

end BoundedOutboundBuffer

inductive Event (Message : Type) where
  | insert (envelope : ServerEnvelope Message)
  | ack (clientId : ClientId) (streamId : StreamId) (ackedSeqId : Nat) (ackedSegmentId : Option Nat)

def BoundedOutboundBuffer.apply (buffer : BoundedOutboundBuffer Message) :
    Event Message → Option (BoundedOutboundBuffer Message)
  | .insert envelope => some (buffer.insert envelope)
  | .ack clientId streamId ackedSeqId ackedSegmentId =>
    buffer.ack clientId streamId ackedSeqId ackedSegmentId

def run (events : List (Event Message)) : Option (BoundedOutboundBuffer Message) :=
  events.foldlM BoundedOutboundBuffer.apply {}

def Event.acks (stream : ClientId × StreamId) (cursor : Nat ×ₗ Nat) : Event Message → Bool
  | .insert _ => false
  | .ack clientId streamId ackedSeqId ackedSegmentId =>
    (clientId, streamId) = stream ∧ cursor ≤ toLex (ackedSeqId, ackedSegmentId.getD usizeMax)

/-- The envelopes of a stream above every ack that came after them. -/
def unacked (stream : ClientId × StreamId) : List (Event Message) → List (ServerEnvelope Message)
  | [] => []
  | .insert envelope :: later =>
    if streamOf envelope = stream ∧ ¬ later.any (·.acks stream (envelopeCursor envelope)) then
      envelope :: unacked stream later
    else unacked stream later
  | .ack .. :: later => unacked stream later

theorem retain_eq (acked : Nat ×ₗ Nat) {envelopes : List (ServerEnvelope Message)} {used : Nat}
    (enough : envelopes.length ≤ used) :
    BoundedOutboundBuffer.retain acked envelopes used =
      some (envelopes.filter fun envelope => ¬ envelopeCursor envelope ≤ acked,
        used - (envelopes.length - (envelopes.filter fun envelope =>
          ¬ envelopeCursor envelope ≤ acked).length)) := by
  induction envelopes generalizing used with
  | nil => rfl
  | cons envelope rest ih =>
    have kept := length_filter_le (fun envelope => decide ¬ envelopeCursor envelope ≤ acked) rest
    rw [length_cons] at enough
    rw [BoundedOutboundBuffer.retain]
    by_cases covered : envelopeCursor envelope ≤ acked
    · rw [if_pos covered, if_neg (by omega), ih (by omega),
        filter_cons_of_neg (by simpa using covered), length_cons, some.injEq, Prod.mk.injEq]
      exact ⟨rfl, by omega⟩
    · rw [if_neg covered, ih (by omega), filter_cons_of_pos (by simpa using covered),
        map_some, length_cons, length_cons, some.injEq, Prod.mk.injEq]
      exact ⟨rfl, by omega⟩

section

variable (stream : ClientId × StreamId) (events : List (Event Message))

theorem unacked_insert : unacked stream (events ++ [.insert envelope]) =
      unacked stream events ++ if streamOf envelope = stream then [envelope] else [] := by
  induction events with
  | nil => simp [unacked]
  | cons event events ih =>
    cases event with
    | ack => exact ih
    | insert first =>
      rw [cons_append, unacked, unacked, ih, any_append, any_cons, Event.acks,
        Bool.false_or, any_nil, Bool.or_false]
      split <;> rfl

theorem unacked_ack (clientId : ClientId) (streamId : StreamId) (ackedSeqId : Nat)
    (ackedSegmentId : Option Nat) :
    unacked stream (events ++ [.ack clientId streamId ackedSeqId ackedSegmentId]) =
      (unacked stream events).filter fun envelope => ¬ ((clientId, streamId) = stream ∧
        envelopeCursor envelope ≤ toLex (ackedSeqId, ackedSegmentId.getD usizeMax)) := by
  induction events with
  | nil => rfl
  | cons event events ih =>
    cases event with
    | ack => exact ih
    | insert first =>
      rw [cons_append, unacked, unacked, ih, any_append, any_cons, Event.acks,
        any_nil, Bool.or_false]
      by_cases covered : (clientId, streamId) = stream ∧
          envelopeCursor first ≤ toLex (ackedSeqId, ackedSegmentId.getD usizeMax)
      · rw [if_neg (by simp [covered])]
        split
        · rw [filter_cons_of_neg (by simpa using covered)]
        · rfl
      · rw [decide_eq_false covered, Bool.or_false]
        split
        · rw [filter_cons, if_pos (decide_eq_true covered)]
        · rfl

end

structure Faithful (events : List (Event Message)) (buffer : BoundedOutboundBuffer Message) :
    Prop where
  distinct : (keys buffer.bufferByStream).Nodup
  used : buffer.used = buffer.serverEnvelopes.length
  kept : ∀ stream, queue buffer.bufferByStream stream = unacked stream events

variable {buffer : BoundedOutboundBuffer Message} {events : List (Event Message)}

theorem Faithful.insert (faithful : Faithful events buffer) (envelope : ServerEnvelope Message) :
    Faithful (events ++ [.insert envelope]) (buffer.insert envelope) where
  distinct := nodup_insert _ _ faithful.distinct
  used := by
    have grown := waiting_insert buffer.bufferByStream (streamOf envelope)
      (queue buffer.bufferByStream (streamOf envelope) ++ [envelope])
    rw [length_append, length_singleton] at grown
    have count := faithful.used
    simp only [BoundedOutboundBuffer.serverEnvelopes, BoundedOutboundBuffer.insert] at count ⊢
    omega
  kept stream := by
    rw [BoundedOutboundBuffer.insert, queue_insert, unacked_insert, ← faithful.kept]
    split
    · rename_i same
      rw [same]
    · rw [append_nil]

theorem Faithful.ack (faithful : Faithful events buffer) (clientId : ClientId) (streamId : StreamId)
    (ackedSeqId : Nat) (ackedSegmentId : Option Nat) :
    ∃ after, buffer.ack clientId streamId ackedSeqId ackedSegmentId = some after ∧
      Faithful (events ++ [.ack clientId streamId ackedSeqId ackedSegmentId]) after := by
  have unchanged (stream : ClientId × StreamId)
      (other : (clientId, streamId) ≠ stream ∨ queue buffer.bufferByStream stream = []) :
      unacked stream (events ++ [.ack clientId streamId ackedSeqId ackedSegmentId]) =
        queue buffer.bufferByStream stream := by
    rw [unacked_ack, ← faithful.kept]
    rcases other with other | empty
    · simp [other]
    · rw [empty]
      rfl
  unfold BoundedOutboundBuffer.ack
  cases found : get (clientId, streamId) buffer.bufferByStream with
  | none =>
    refine ⟨buffer, rfl, faithful.distinct, faithful.used, fun stream => (unchanged stream ?_).symm⟩
    by_cases same : (clientId, streamId) = stream
    · exact .inr (by rw [queue, ← same, found, getD_none])
    · exact .inl same
  | some envelopes =>
    have here : queue buffer.bufferByStream (clientId, streamId) = envelopes := by
      rw [queue, found, getD_some]
    have fits := queue_length_le buffer.bufferByStream (clientId, streamId)
    have count := faithful.used
    rw [BoundedOutboundBuffer.serverEnvelopes] at count
    rw [here] at fits
    dsimp only
    rw [retain_eq _ (by omega)]
    refine ⟨_, rfl, nodup_setQueue faithful.distinct _ _, ?_, fun stream => ?_⟩
    · have kept := length_filter_le (fun envelope => decide ¬ envelopeCursor envelope ≤
        toLex (ackedSeqId, ackedSegmentId.getD usizeMax)) envelopes
      have moved := waiting_setQueue faithful.distinct (clientId, streamId)
        (envelopes.filter fun envelope => ¬ envelopeCursor envelope ≤
          toLex (ackedSeqId, ackedSegmentId.getD usizeMax))
      rw [here] at moved
      rw [BoundedOutboundBuffer.serverEnvelopes]
      dsimp only
      omega
    · rw [queue_setQueue]
      split
      · rename_i same
        rw [unacked_ack, ← faithful.kept, ← same, here]
        simp
      · rename_i other
        exact (unchanged stream (.inl other)).symm

/-- Whatever is inserted and acknowledged, the count is that of the waiting envelopes and never
runs below zero, and each stream keeps, in order, the envelopes above every later ack. -/
theorem buffer_faithful (events : List (Event Message)) :
    ∃ buffer, run events = some buffer ∧ buffer.used = buffer.serverEnvelopes.length ∧
      ∀ stream, queue buffer.bufferByStream stream = unacked stream events := by
  suffices held : ∃ buffer, run events = some buffer ∧ Faithful events buffer by
    obtain ⟨buffer, ran, faithful⟩ := held
    exact ⟨buffer, ran, faithful.used, faithful.kept⟩
  induction events using reverseRecOn with
  | nil => exact ⟨{}, rfl, nodup_nil, rfl, fun _ => rfl⟩
  | append_singleton events event ih =>
    obtain ⟨buffer, ran, faithful⟩ := ih
    have next : run (events ++ [event]) = buffer.apply event := by
      rw [run, foldlM_append, ← run, ran]
      exact bind_fun_some _
    rw [next]
    cases event with
    | insert envelope => exact ⟨_, rfl, faithful.insert envelope⟩
    | ack clientId streamId ackedSeqId ackedSegmentId =>
      exact faithful.ack clientId streamId ackedSeqId ackedSegmentId

end OpenInterpreter.OutboundBuffer
