import OpenInterpreter.Chunks
import OpenInterpreter.StreamDecoder

/-! The byte framing of JSON-RPC messages over encrypted records:
`exec-server/src/noise_relay/message_framing.rs`. -/

namespace OpenInterpreter.MessageFraming

open StreamDecoder List

abbrev Bytes := List UInt8

def lengthPrefixBytes : Nat := 4

def maxNoiseJsonrpcMessageLen : Nat := 64 * 1024 * 1024

def noiseRecordPlaintextLen : Nat := 60 * 1024

inductive ExecServerError where
  | protocol (message : String)
  deriving DecidableEq

def toBeBytes (value : Nat) : Bytes :=
  [UInt8.ofNat (value / 2 ^ 24), UInt8.ofNat (value / 2 ^ 16), UInt8.ofNat (value / 2 ^ 8),
    UInt8.ofNat value]

def messageLengthPrefix (messageLen : Nat) : Except ExecServerError Bytes :=
  if messageLen = 0 ∨ maxNoiseJsonrpcMessageLen < messageLen then
    .error (.protocol "Noise relay JSON-RPC message exceeds maximum length")
  else .ok (toBeBytes messageLen)

def frameMessage (message : Bytes) : Except ExecServerError Bytes := do
  let lengthPrefix ← messageLengthPrefix message.length
  return lengthPrefix ++ message

structure MessageDecoder where
  buffered : Bytes := []
  deriving DecidableEq

def declaredLen : Bytes → Option Nat
  | first :: second :: third :: fourth :: _ =>
    some (first.toNat * 2 ^ 24 + second.toNat * 2 ^ 16 + third.toNat * 2 ^ 8 + fourth.toNat)
  | _ => none

/-- One turn of the loop of `push`. -/
def frameStep (buffered : Bytes) : Step UInt8 Bytes ExecServerError :=
  match declaredLen buffered with
  | none => .more
  | some messageLen =>
    -- The length is refused before its payload is waited for.
    if messageLen = 0 ∨ maxNoiseJsonrpcMessageLen < messageLen then
      .refuse (.protocol "Noise relay JSON-RPC message has invalid length")
    else if buffered.length < lengthPrefixBytes + messageLen then .more
    else
      .emit ((buffered.drop lengthPrefixBytes).take messageLen)
        (buffered.drop (lengthPrefixBytes + messageLen))

variable {buffered : Bytes}

theorem declaredLen_append {messageLen : Nat} (later : Bytes)
    (declared : declaredLen buffered = some messageLen) :
    declaredLen (buffered ++ later) = some messageLen := by
  match buffered, declared with
  | _ :: _ :: _ :: _ :: _, declared => exact declared

theorem frameStep_emit {value rest : Bytes} (found : frameStep buffered = .emit value rest) :
    ∃ messageLen, declaredLen buffered = some messageLen ∧
      ¬ (messageLen = 0 ∨ maxNoiseJsonrpcMessageLen < messageLen) ∧
      lengthPrefixBytes + messageLen ≤ buffered.length ∧
      value = (buffered.drop lengthPrefixBytes).take messageLen ∧
      rest = buffered.drop (lengthPrefixBytes + messageLen) := by
  unfold frameStep at found
  split at found
  · cases found
  · rename_i messageLen declared
    split at found
    · cases found
    · rename_i valid
      split at found
      · cases found
      · rename_i complete
        cases found
        exact ⟨messageLen, declared, valid, Nat.not_lt.mp complete, rfl, rfl⟩

theorem frameStep_refuse {error : ExecServerError} (found : frameStep buffered = .refuse error) :
    ∃ messageLen, declaredLen buffered = some messageLen ∧
      (messageLen = 0 ∨ maxNoiseJsonrpcMessageLen < messageLen) ∧
      error = .protocol "Noise relay JSON-RPC message has invalid length" := by
  unfold frameStep at found
  split at found
  · cases found
  · rename_i messageLen declared
    split at found
    · rename_i invalid
      cases found
      exact ⟨messageLen, declared, invalid, rfl⟩
    · split at found <;> cases found

/-- The loop of `push` as a decoder: a message that is complete, or a length that is refused,
is so whatever record comes next. -/
def frameDecoder : Decoder UInt8 Bytes ExecServerError where
  step := frameStep
  consumes := by
    intro buffered value rest found
    obtain ⟨messageLen, _, _, complete, _, rfl⟩ := frameStep_emit found
    rw [length_drop]
    simp only [lengthPrefixBytes] at complete ⊢
    omega
  emit_append := by
    intro buffered value rest later found
    obtain ⟨messageLen, declared, valid, complete, rfl, rfl⟩ := frameStep_emit found
    have payload : messageLen ≤ (buffered.drop lengthPrefixBytes).length := by
      rw [length_drop]
      omega
    have fits : ¬ (buffered ++ later).length < lengthPrefixBytes + messageLen := by
      rw [length_append]
      omega
    simp only [frameStep, declaredLen_append later declared, if_neg valid, if_neg fits]
    rw [drop_append_of_le_length (by omega), take_append_of_le_length payload,
      drop_append_of_le_length complete]
  refuse_append := by
    intro buffered error later found
    obtain ⟨messageLen, declared, invalid, rfl⟩ := frameStep_refuse found
    simp [frameStep, declaredLen_append later declared, if_pos invalid]

def MessageDecoder.push (decoder : MessageDecoder) (plaintextRecord : Bytes) :
    MessageDecoder × Except ExecServerError (List Bytes) :=
  if noiseRecordPlaintextLen < plaintextRecord.length then
    (decoder, .error (.protocol "Noise relay plaintext record exceeds maximum length"))
  else
    let drained := drain frameDecoder (decoder.buffered ++ plaintextRecord)
    match drained.error with
    | some error => (⟨drained.rest⟩, .error error)
    | none =>
      if lengthPrefixBytes + maxNoiseJsonrpcMessageLen < drained.rest.length then
        (⟨drained.rest⟩,
          .error (.protocol "Noise relay JSON-RPC reassembly buffer exceeds maximum length"))
      else (⟨drained.rest⟩, .ok drained.values)

def MessageDecoder.pushAll (decoder : MessageDecoder) :
    List Bytes → MessageDecoder × Except ExecServerError (List Bytes)
  | [] => (decoder, .ok [])
  | record :: records =>
    match decoder.push record with
    | (next, .error error) => (next, .error error)
    | (next, .ok messages) =>
      ((next.pushAll records).1, (next.pushAll records).2.map (messages ++ ·))

def frameStream (messages : List Bytes) : Except ExecServerError Bytes := do
  let framed ← messages.mapM frameMessage
  return framed.flatten

/-- Less than one frame: the prefix is incomplete, or the payload it declares is. -/
def HoldsPartialFrame (buffered : Bytes) : Prop :=
  ∀ messageLen, declaredLen buffered = some messageLen →
    buffered.length < lengthPrefixBytes + messageLen

theorem declaredLen_toBeBytes (messageLen : Nat) (payload : Bytes) (fits : messageLen < 2 ^ 32) :
    declaredLen (toBeBytes messageLen ++ payload) = some messageLen := by
  simp only [toBeBytes, cons_append, declaredLen, UInt8.toNat_ofNat', Option.some.injEq]
  omega

theorem length_toBeBytes (value : Nat) : (toBeBytes value).length = lengthPrefixBytes := rfl

theorem messageLengthPrefix_valid (messageLen : Nat) (positive : 0 < messageLen)
    (bounded : messageLen ≤ maxNoiseJsonrpcMessageLen) :
    messageLengthPrefix messageLen = .ok (toBeBytes messageLen) :=
  if_neg (by omega)

theorem frameStream_valid {messages : List Bytes}
    (sizes : ∀ message ∈ messages,
      0 < message.length ∧ message.length ≤ maxNoiseJsonrpcMessageLen) :
    frameStream messages =
      .ok (messages.flatMap fun message => toBeBytes message.length ++ message) := by
  have framed : messages.mapM frameMessage =
      .ok (messages.map fun message => toBeBytes message.length ++ message) := by
    apply Chunks.mapM_ok
    intro message listed
    obtain ⟨positive, bounded⟩ := sizes message listed
    rw [frameMessage, messageLengthPrefix_valid _ positive bounded]
    rfl
  rw [frameStream, framed]
  exact congrArg Except.ok (flatMap_def ..).symm

theorem frameStep_framed {message : Bytes} (later : Bytes) (positive : 0 < message.length)
    (bounded : message.length ≤ maxNoiseJsonrpcMessageLen) :
    frameStep (toBeBytes message.length ++ message ++ later) = .emit message later := by
  have small : message.length < 2 ^ 32 := by
    simp only [maxNoiseJsonrpcMessageLen] at bounded
    omega
  have declared : declaredLen (toBeBytes message.length ++ message ++ later) =
      some message.length := by
    exact declaredLen_toBeBytes _ _ small
  have complete : ¬ (toBeBytes message.length ++ message ++ later).length <
      lengthPrefixBytes + message.length := by
    simp only [length_append, length_toBeBytes]
    omega
  have payload : (toBeBytes message.length ++ message ++ later).drop lengthPrefixBytes =
      message ++ later := by
    rw [append_assoc, drop_left' (length_toBeBytes _)]
  have valid : ¬ (message.length = 0 ∨ maxNoiseJsonrpcMessageLen < message.length) := by omega
  simp only [frameStep, declared, if_neg valid, if_neg complete, payload, take_left]
  rw [← drop_drop, payload, drop_left]

theorem drain_framed {messages : List Bytes}
    (sizes : ∀ message ∈ messages,
      0 < message.length ∧ message.length ≤ maxNoiseJsonrpcMessageLen) :
    drain frameDecoder (messages.flatMap fun message => toBeBytes message.length ++ message) =
      ⟨messages, [], none⟩ := by
  induction messages with
  | nil => exact drain_more frameDecoder rfl
  | cons message messages ih =>
    obtain ⟨⟨positive, bounded⟩, rest⟩ := forall_mem_cons.mp sizes
    have taken : frameDecoder.step (toBeBytes message.length ++ message ++
        messages.flatMap fun message => toBeBytes message.length ++ message) =
          .emit message (messages.flatMap fun message => toBeBytes message.length ++ message) :=
      frameStep_framed _ positive bounded
    rw [flatMap_cons, drain_emit frameDecoder taken, ih rest]
    rfl

theorem partial_of_more (found : frameStep buffered = .more) : HoldsPartialFrame buffered := by
  intro messageLen declared
  simp only [frameStep, declared] at found
  split at found
  · cases found
  · split at found
    · assumption
    · cases found

theorem length_of_more (found : frameStep buffered = .more) :
    buffered.length ≤ lengthPrefixBytes + maxNoiseJsonrpcMessageLen := by
  cases declared : declaredLen buffered with
  | none =>
    match buffered, declared with
    | [], _ | [_], _ | [_, _], _ | [_, _, _], _ =>
      simp [maxNoiseJsonrpcMessageLen]
  | some messageLen =>
    have below := partial_of_more found messageLen declared
    simp only [frameStep, declared] at found
    split at found
    · cases found
    · omega

theorem push_eq (decoder : MessageDecoder) (record : Bytes) :
    decoder.push record =
      if noiseRecordPlaintextLen < record.length then
        (decoder, .error (.protocol "Noise relay plaintext record exceeds maximum length"))
      else
        (⟨(drain frameDecoder (decoder.buffered ++ record)).rest⟩,
          match (drain frameDecoder (decoder.buffered ++ record)).error with
          | some error => .error error
          | none => .ok (drain frameDecoder (decoder.buffered ++ record)).values) := by
  unfold MessageDecoder.push
  split
  · rfl
  · dsimp only
    split
    · rfl
    · rename_i accepted
      have bounded := length_of_more (step_rest frameDecoder _ accepted)
      rw [if_neg (by omega)]

theorem error_drain (buffered : Bytes) (error : ExecServerError)
    (refused : (drain frameDecoder buffered).error = some error) :
    error = .protocol "Noise relay JSON-RPC message has invalid length" := by
  induction buffered using drain_induction frameDecoder with
  | more buffered found =>
    rw [drain_more frameDecoder found] at refused
    cases refused
  | refuse buffered other found =>
    obtain ⟨_, _, _, rfl⟩ := frameStep_refuse found
    rw [drain_refuse frameDecoder found] at refused
    cases refused
    rfl
  | emit buffered value rest found ih =>
    rw [drain_emit frameDecoder found] at refused
    exact ih refused

theorem pushAll_drain (records messages : List Bytes) (buffered : Bytes)
    (sizes : ∀ record ∈ records, record.length ≤ noiseRecordPlaintextLen)
    (waits : frameDecoder.step buffered = .more)
    (stream : drain frameDecoder (buffered ++ records.flatten) = ⟨messages, [], none⟩) :
    MessageDecoder.pushAll ⟨buffered⟩ records = (⟨[]⟩, .ok messages) := by
  induction records generalizing buffered messages with
  | nil =>
    rw [flatten_nil, append_nil, drain_more frameDecoder waits] at stream
    cases stream
    rfl
  | cons record records ih =>
    obtain ⟨size, sizes⟩ := forall_mem_cons.mp sizes
    rw [flatten_cons, ← append_assoc] at stream
    obtain ⟨accepted, later, rfl, read⟩ := drain_cut frameDecoder stream
    have pushed : MessageDecoder.push ⟨buffered⟩ record =
        (⟨(drain frameDecoder (buffered ++ record)).rest⟩,
          .ok (drain frameDecoder (buffered ++ record)).values) := by
      rw [push_eq, if_neg (by omega)]
      simp [accepted]
    have rest := ih later _ sizes (step_rest frameDecoder _ accepted) read
    simp [MessageDecoder.pushAll, pushed, rest, Except.map]

/-- Messages framed by the sender come out of the decoder as they went in, however their bytes
are cut into records; and no input makes the decoder hold a complete frame after a push, so that
its last check never fails. -/
theorem framing_round_trips :
    (∀ messages : List Bytes,
      (∀ message ∈ messages, 0 < message.length ∧ message.length ≤ maxNoiseJsonrpcMessageLen) →
      ∃ stream, frameStream messages = .ok stream ∧
        ∀ records : List Bytes, (∀ record ∈ records, record.length ≤ noiseRecordPlaintextLen) →
          records.flatten = stream →
          MessageDecoder.pushAll {} records = (⟨[]⟩, .ok messages)) ∧
    ∀ (decoder : MessageDecoder) (record : Bytes),
      (∀ messages, (decoder.push record).2 = .ok messages →
        HoldsPartialFrame (decoder.push record).1.buffered) ∧
      (decoder.push record).2 ≠
        .error (.protocol "Noise relay JSON-RPC reassembly buffer exceeds maximum length") := by
  constructor
  · intro messages sizes
    refine ⟨_, frameStream_valid sizes, ?_⟩
    intro records recordSizes cut
    apply pushAll_drain records messages [] recordSizes rfl
    rw [cut]
    exact drain_framed sizes
  · intro decoder record
    rw [push_eq]
    split
    · exact ⟨fun _ accepted => (by cases accepted), by simp⟩
    · dsimp only
      split
      · rename_i error refused
        refine ⟨fun _ accepted => (by cases accepted), ?_⟩
        rw [error_drain _ _ refused]
        decide
      · rename_i accepted
        exact ⟨fun _ _ => partial_of_more (step_rest frameDecoder _ accepted), by simp⟩

theorem cut_prefix_round_trips :
    frameStream [[7], [8, 9]] = .ok [0, 0, 0, 1, 7, 0, 0, 0, 2, 8, 9] ∧
      MessageDecoder.pushAll {} [[0, 0], [0, 1, 7, 0, 0], [0, 2, 8], [9]] =
        (⟨[]⟩, .ok [[7], [8, 9]]) := by
  have framed : frameStream [[7], [8, 9]] = .ok [0, 0, 0, 1, 7, 0, 0, 0, 2, 8, 9] := rfl
  refine ⟨framed, ?_⟩
  obtain ⟨stream, streamed, read⟩ := framing_round_trips.1 [[7], [8, 9]] (by decide)
  cases framed.symm.trans streamed
  exact read [[0, 0], [0, 1, 7, 0, 0], [0, 2, 8], [9]] (by decide) rfl

end OpenInterpreter.MessageFraming
