import OpenInterpreter.Chunks
import OpenInterpreter.RemoteControl

/-! Outbound segmentation: `split_server_envelope_for_transport` of
`app-server-transport/src/transport/remote_control/segment.rs`. -/

namespace OpenInterpreter.ServerSegments

open Chunks RemoteControl List

/-- JSON and base64 as the transport uses them. A response has an id, under which an error can be
sent in its place. -/
structure ServerCodec (Message RequestId : Type) where
  serializeMessage : Message → Except String Bytes
  serializeEnvelope : ServerEnvelope Message → Except String Bytes
  encodeBase64 : Bytes → List Char
  decodeBase64 : List Char → Option Bytes
  decode_encode : ∀ bytes, decodeBase64 (encodeBase64 bytes) = some bytes
  responseId : Message → Option RequestId
  outgoingError : RequestId → String → Message

variable {Message RequestId : Type} (codec : ServerCodec Message RequestId)

variable (envelope : ServerEnvelope Message)

def serializedLen : Except String Nat :=
  (codec.serializeEnvelope envelope).map List.length

def buildChunkEnvelope (segmentId segmentCount messageSizeBytes : Nat) (chunk : Bytes) :
    Except String (ServerEnvelope Message) :=
  if remoteControlSegmentCountMax < segmentCount then
    .error "remote-control segment count exceeds maximum"
  else
    .ok { envelope with
      event := .serverMessageChunk segmentId segmentCount messageSizeBytes
        (codec.encodeBase64 chunk) }

def serializedChunkLen (segmentId segmentCount messageSizeBytes : Nat) (chunk : Bytes) :
    Except String Nat := do
  let chunkEnvelope ←
    buildChunkEnvelope codec envelope segmentId segmentCount messageSizeBytes chunk
  serializedLen codec chunkEnvelope

def chunkSizeFor (messageSizeBytes segmentCount : Nat) : Nat :=
  max 1 (messageSizeBytes ⌈/⌉ segmentCount)

def segmentsFit (raw : Bytes) (chunkSize segmentCount : Nat) : Bool :=
  (chunks chunkSize raw).zipIdx.all fun entry =>
    match serializedChunkLen codec envelope entry.2 segmentCount raw.length entry.1 with
    | .ok size => decide (size ≤ remoteControlSegmentMaxBytes)
    | .error _ => false

def nextSegmentCount (messageSizeBytes chunkSize segmentCount : Nat) : Nat :=
  if chunkSizeFor messageSizeBytes (segmentCount + 1) = chunkSize then messageSizeBytes
  else segmentCount + 1

theorem chunkSizeFor_decreases (messageSizeBytes segmentCount : Nat)
    (large : chunkSizeFor messageSizeBytes segmentCount ≠ 1) :
    chunkSizeFor messageSizeBytes (nextSegmentCount messageSizeBytes
        (chunkSizeFor messageSizeBytes segmentCount)
        (messageSizeBytes ⌈/⌉ chunkSizeFor messageSizeBytes segmentCount)) <
      chunkSizeFor messageSizeBytes segmentCount := by
  generalize size : chunkSizeFor messageSizeBytes segmentCount = chunkSize at large ⊢
  have positive : 0 < chunkSize := by
    rw [← size]
    exact Nat.lt_of_lt_of_le Nat.one_pos (Nat.le_max_left ..)
  have covered : messageSizeBytes ≤ chunkSize * (messageSizeBytes ⌈/⌉ chunkSize) :=
    le_smul_ceilDiv positive
  have smaller : chunkSizeFor messageSizeBytes (messageSizeBytes ⌈/⌉ chunkSize + 1) ≤
      chunkSize := by
    apply Nat.max_le.mpr
    refine ⟨positive, ?_⟩
    rw [ceilDiv_le_iff_le_mul (Nat.succ_pos _)]
    calc
      messageSizeBytes ≤ chunkSize * (messageSizeBytes ⌈/⌉ chunkSize) := covered
      _ ≤ (messageSizeBytes ⌈/⌉ chunkSize + 1) * chunkSize := by
          rw [Nat.mul_comm]
          exact Nat.mul_le_mul_right _ (Nat.le_succ _)
  unfold nextSegmentCount
  split
  · have single : chunkSizeFor messageSizeBytes messageSizeBytes = 1 := by
      apply Nat.max_eq_left
      cases messageSizeBytes with
      | zero => simp
      | succ length =>
        rw [ceilDiv_le_iff_le_mul (Nat.succ_pos _)]
        omega
    omega
  · omega

def splitLoop (envelope : ServerEnvelope Message) (raw : Bytes) (segmentCount : Nat) :
    Except String (List (ServerEnvelope Message)) :=
  let chunkSize := chunkSizeFor raw.length segmentCount
  let actualCount := raw.length ⌈/⌉ chunkSize
  if segmentsFit codec envelope raw chunkSize actualCount then
    (chunks chunkSize raw).zipIdx.mapM fun entry =>
      buildChunkEnvelope codec envelope entry.2 actualCount raw.length entry.1
  else if chunkSize = 1 then .ok []
  else splitLoop envelope raw (nextSegmentCount raw.length chunkSize actualCount)
termination_by chunkSizeFor raw.length segmentCount
decreasing_by exact chunkSizeFor_decreases _ _ ‹_›

def splitServerEnvelopeForTransport : Except String (List (ServerEnvelope Message)) :=
  match envelope.event with
  | .serverMessage message =>
    match serializedLen codec envelope with
    | .error error =>
      match codec.responseId message with
      | none => .error error
      | some id =>
        .ok [{ envelope with
          event := .serverMessage
            (codec.outgoingError id ("failed to serialize response: " ++ error)) }]
    | .ok envelopeSizeBytes =>
      if envelopeSizeBytes ≤ remoteControlSegmentMaxBytes then .ok [envelope]
      else do
        let raw ← codec.serializeMessage message
        if remoteControlReassembledMaxBytes < raw.length then return []
        let minimal ← serializedChunkLen codec envelope 0
          (min (max raw.length 1) remoteControlSegmentCountMax) raw.length (raw.take 1)
        if remoteControlSegmentMaxBytes < minimal then return []
        splitLoop codec envelope raw
          (max 2 (raw.length ⌈/⌉ remoteControlSegmentTargetBytes))
  | _ => .ok [envelope]

def segmentBytes (segment : ServerEnvelope Message) : Option Bytes :=
  segment.event.chunkBase64.bind codec.decodeBase64

def decodedSegments (segments : List (ServerEnvelope Message)) : Option Bytes :=
  (segments.mapM (segmentBytes codec)).map flatten

def FitsTransport : Prop :=
  ∃ size, serializedLen codec envelope = .ok size ∧ size ≤ remoteControlSegmentMaxBytes

structure Segmented (raw : Bytes) (segments : List (ServerEnvelope Message)) : Prop where
  ids : (segments.map fun segment => segment.event.segmentId) =
    (List.range segments.length).map some
  bounded : segments.length ≤ remoteControlSegmentCountMax
  counts : ∀ segment ∈ segments, segment.event.segmentCount = some segments.length
  addressed : ∀ segment ∈ segments, segment.clientId = envelope.clientId ∧
    segment.streamId = envelope.streamId ∧ segment.seqId = envelope.seqId
  fit : ∀ segment ∈ segments, FitsTransport codec segment
  decoded : decodedSegments codec segments = some raw

def chunkEnvelope (segmentCount messageSizeBytes : Nat)
    (entry : Bytes × Nat) : ServerEnvelope Message :=
  { envelope with
    event := .serverMessageChunk entry.2 segmentCount messageSizeBytes
      (codec.encodeBase64 entry.1) }

variable {envelope : ServerEnvelope Message}

theorem serializedChunkLen_ok {segmentCount messageSizeBytes size : Nat} {entry : Bytes × Nat}
    (measured : serializedChunkLen codec envelope entry.2 segmentCount messageSizeBytes entry.1 =
      .ok size) :
    segmentCount ≤ remoteControlSegmentCountMax ∧
      buildChunkEnvelope codec envelope entry.2 segmentCount messageSizeBytes entry.1 =
        .ok (chunkEnvelope codec envelope segmentCount messageSizeBytes entry) ∧
      serializedLen codec (chunkEnvelope codec envelope segmentCount messageSizeBytes entry) =
        .ok size := by
  unfold serializedChunkLen buildChunkEnvelope at measured
  unfold buildChunkEnvelope
  split at measured
  · cases measured
  · rename_i legal
    rw [if_neg legal]
    exact ⟨Nat.not_lt.mp legal, rfl, measured⟩

theorem segmentsFit_iff (envelope : ServerEnvelope Message) (raw : Bytes)
    (chunkSize segmentCount : Nat) :
    segmentsFit codec envelope raw chunkSize segmentCount = true ↔
      ∀ entry ∈ (chunks chunkSize raw).zipIdx, ∃ size,
        serializedChunkLen codec envelope entry.2 segmentCount raw.length entry.1 = .ok size ∧
          size ≤ remoteControlSegmentMaxBytes := by
  rw [segmentsFit, all_eq_true]
  apply forall₂_congr
  intro entry _
  cases serializedChunkLen codec envelope entry.2 segmentCount raw.length entry.1 <;> simp

theorem decodedSegments_chunks (envelope : ServerEnvelope Message)
    (segmentCount messageSizeBytes : Nat) (entries : List (Bytes × Nat)) :
    decodedSegments codec (entries.map (chunkEnvelope codec envelope segmentCount messageSizeBytes)) =
      some (entries.map Prod.fst).flatten := by
  have each : (entries.map (chunkEnvelope codec envelope segmentCount messageSizeBytes)).mapM
      (segmentBytes codec) = some (entries.map Prod.fst) := by
    induction entries with
    | nil => rfl
    | cons entry entries ih =>
      rw [map_cons, mapM_cons, ih]
      simp [segmentBytes, chunkEnvelope, ServerEvent.chunkBase64, codec.decode_encode]
  rw [decodedSegments, each]
  rfl

theorem segmented_chunks {raw : Bytes} {chunkSize : Nat} (positive : 0 < chunkSize)
    (fit : segmentsFit codec envelope raw chunkSize (raw.length ⌈/⌉ chunkSize) = true) :
    ∃ segments, ((chunks chunkSize raw).zipIdx.mapM fun entry =>
        buildChunkEnvelope codec envelope entry.2 (raw.length ⌈/⌉ chunkSize) raw.length entry.1) =
          .ok segments ∧ Segmented codec envelope raw segments := by
  rw [segmentsFit_iff] at fit
  have count : (chunks chunkSize raw).zipIdx.length = raw.length ⌈/⌉ chunkSize := by
    rw [length_zipIdx, length_chunks]
  have built : ∀ entry ∈ (chunks chunkSize raw).zipIdx,
      buildChunkEnvelope codec envelope entry.2 (raw.length ⌈/⌉ chunkSize) raw.length entry.1 =
        .ok (chunkEnvelope codec envelope (raw.length ⌈/⌉ chunkSize) raw.length entry) := by
    intro entry listed
    obtain ⟨size, measured, _⟩ := fit entry listed
    exact (serializedChunkLen_ok codec measured).2.1
  refine ⟨_, mapM_ok built, ?_⟩
  constructor
  · rw [map_map, length_map, count]
    calc
      _ = ((chunks chunkSize raw).zipIdx.map Prod.snd).map some := by
          rw [map_map]
          rfl
      _ = _ := by rw [zipIdx_map_snd, length_chunks, range_eq_range']
  · rw [length_map, count]
    cases listed : (chunks chunkSize raw).zipIdx with
    | nil =>
      rw [← count, listed]
      exact Nat.zero_le _
    | cons entry entries =>
      obtain ⟨size, measured, _⟩ := fit entry (listed ▸ mem_cons_self)
      exact (serializedChunkLen_ok codec measured).1
  · intro segment listed
    obtain ⟨entry, _, rfl⟩ := mem_map.mp listed
    rw [length_map, count]
    rfl
  · intro segment listed
    obtain ⟨entry, _, rfl⟩ := mem_map.mp listed
    exact ⟨rfl, rfl, rfl⟩
  · intro segment listed
    obtain ⟨entry, member, rfl⟩ := mem_map.mp listed
    obtain ⟨size, measured, small⟩ := fit entry member
    exact ⟨size, (serializedChunkLen_ok codec measured).2.2, small⟩
  · rw [decodedSegments_chunks, zipIdx_map_fst, flatten_chunks positive]

theorem splitLoop_spec (envelope : ServerEnvelope Message) (raw : Bytes) (segmentCount : Nat) :
    ∃ segments, splitLoop codec envelope raw segmentCount = .ok segments ∧
      (segments = [] ∨ Segmented codec envelope raw segments) := by
  induction segmentCount using splitLoop.induct codec envelope raw with
  | case1 segmentCount chunkSize actualCount fit =>
    have positive : 0 < chunkSize := Nat.lt_of_lt_of_le Nat.one_pos (Nat.le_max_left ..)
    obtain ⟨segments, built, segmented⟩ := segmented_chunks codec positive fit
    rw [splitLoop, if_pos fit]
    exact ⟨segments, built, .inr segmented⟩
  | case2 segmentCount chunkSize actualCount unfit single =>
    rw [splitLoop, if_neg unfit, if_pos single]
    exact ⟨[], rfl, .inl rfl⟩
  | case3 segmentCount chunkSize actualCount unfit large ih =>
    rw [splitLoop, if_neg unfit, if_neg large]
    exact ih

theorem returned_of_serialized {message : Message} {size : Nat}
    (event : envelope.event = .serverMessage message)
    (measured : serializedLen codec envelope = .ok size) {returned : List (ServerEnvelope Message)}
    (split : splitServerEnvelopeForTransport codec envelope = .ok returned) :
    (∀ each ∈ returned, FitsTransport codec each) ∧ (returned = [envelope] ∨ returned = [] ∨
        ∃ raw, codec.serializeMessage message = .ok raw ∧
          Segmented codec envelope raw returned) := by
  have nothing : (∀ each ∈ ([] : List (ServerEnvelope Message)), FitsTransport codec each) := by
    simp
  rw [splitServerEnvelopeForTransport, event] at split
  simp only [measured] at split
  split at split
  · rename_i small
    cases split
    refine ⟨?_, .inl rfl⟩
    intro each listed
    cases mem_singleton.mp listed
    exact ⟨size, measured, small⟩
  · cases serialized : codec.serializeMessage message with
    | error error =>
      simp only [serialized] at split
      cases split
    | ok raw =>
      simp only [serialized, bind, Except.bind] at split
      split at split
      · cases split
        exact ⟨nothing, .inr (.inl rfl)⟩
      · cases minimal : serializedChunkLen codec envelope 0
            (min (max raw.length 1) remoteControlSegmentCountMax) raw.length (raw.take 1) with
        | error error => simp [minimal] at split
        | ok minimalSize =>
          simp only [minimal] at split
          split at split
          · cases split
            exact ⟨nothing, .inr (.inl rfl)⟩
          · obtain ⟨segments, done, outcome⟩ := splitLoop_spec codec envelope raw
              (max 2 (raw.length ⌈/⌉ remoteControlSegmentTargetBytes))
            cases done.symm.trans split
            cases outcome with
            | inl dropped =>
              subst dropped
              exact ⟨nothing, .inr (.inl rfl)⟩
            | inr segmented => exact ⟨segmented.fit, .inr (.inr ⟨raw, rfl, segmented⟩)⟩

/-- For a message that serializes, every envelope returned is within the transport limit, and
segments carry the whole message under their numbers. Other events are passed on as they are, and
a response that does not serialize becomes one error response: neither is measured. -/
theorem segmentation_lossless (envelope : ServerEnvelope Message) :
    (∀ message size, envelope.event = .serverMessage message →
      serializedLen codec envelope = .ok size →
      ∀ returned, splitServerEnvelopeForTransport codec envelope = .ok returned →
        (∀ each ∈ returned, FitsTransport codec each) ∧
        (returned = [envelope] ∨ returned = [] ∨ ∃ raw, codec.serializeMessage message = .ok raw ∧
            Segmented codec envelope raw returned)) ∧
    ((∀ message, envelope.event ≠ .serverMessage message) →
      splitServerEnvelopeForTransport codec envelope = .ok [envelope]) ∧
    ∀ message error, envelope.event = .serverMessage message →
      serializedLen codec envelope = .error error →
      splitServerEnvelopeForTransport codec envelope =
        match codec.responseId message with
        | none => .error error
        | some id =>
          .ok [{ envelope with
            event := .serverMessage
              (codec.outgoingError id ("failed to serialize response: " ++ error)) }] := by
  refine ⟨?_, ?_, ?_⟩
  · intro message size event measured returned split
    exact returned_of_serialized codec event measured split
  · intro other
    rw [splitServerEnvelopeForTransport]
    split
    · rename_i message event
      exact (other message event).elim
    · rfl
  · intro message error event measured
    rw [splitServerEnvelopeForTransport, event]
    simp [measured]

def eventText : ServerEvent (List Char) → List Char
  | .serverMessage message => "\"type\":\"server_message\",\"message\":".toList ++ message
  | .serverMessageChunk segmentId segmentCount messageSizeBytes messageChunkBase64 =>
    "\"type\":\"server_message_chunk\",\"segment_id\":".toList ++
      (toString segmentId).toList ++ ",\"segment_count\":".toList ++
      (toString segmentCount).toList ++ ",\"message_size_bytes\":".toList ++
      (toString messageSizeBytes).toList ++ ",\"message_chunk_base64\":\"".toList ++
      messageChunkBase64 ++ "\"".toList
  | .ack => "\"type\":\"ack\"".toList
  | .pong .active => "\"type\":\"pong\",\"status\":\"active\"".toList
  | .pong .unknown => "\"type\":\"pong\",\"status\":\"unknown\"".toList

def envelopeText (envelope : ServerEnvelope (List Char)) : List Char :=
  "\x7b".toList ++ eventText envelope.event ++ ",\"client_id\":\"".toList ++ envelope.clientId ++
    "\",\"stream_id\":\"".toList ++ envelope.streamId ++ "\",\"seq_id\":".toList ++
    (toString envelope.seqId).toList ++ "\x7d".toList

def asciiBytes (text : List Char) : Bytes := text.map fun char => UInt8.ofNat char.toNat

theorem byte_of_char (byte : UInt8) : UInt8.ofNat (Char.ofNat byte.toNat).toNat = byte := by
  have valid : byte.toNat.isValidChar := .inl (Nat.lt_trans byte.toNat_lt (by decide))
  have kept : (Char.ofNat byte.toNat).toNat = byte.toNat := by
    rw [Char.ofNat, dif_pos valid]
    rfl
  rw [kept, UInt8.ofNat_toNat]

theorem clientId_length_le (envelope : ServerEnvelope (List Char)) :
    envelope.clientId.length ≤ (asciiBytes (envelopeText envelope)).length := by
  rw [asciiBytes, length_map]
  have ended : ∀ front back : List Char, front.Sublist (front ++ back) := sublist_append_left
  apply Sublist.length_le
  exact ((((sublist_append_right _ _).trans (ended _ _)).trans (ended _ _)).trans
    (ended _ _)).trans ((ended _ _).trans (ended _ _))

def textCodec : ServerCodec (List Char) Unit where
  serializeMessage message := .ok (asciiBytes message)
  serializeEnvelope envelope := .ok (asciiBytes (envelopeText envelope))
  encodeBase64 bytes := bytes.map fun byte => Char.ofNat byte.toNat
  decodeBase64 text := some (asciiBytes text)
  decode_encode bytes := by
    simp [asciiBytes, Function.comp_def, byte_of_char]
  responseId _ := none
  outgoingError _ text := text.toList

theorem length_around (a front text back b c d e f g h : List Char) :
    (a ++ (front ++ text ++ back) ++ b ++ c ++ d ++ e ++ f ++ g ++ h).length =
      text.length + (a ++ (front ++ [] ++ back) ++ b ++ c ++ d ++ e ++ f ++ g ++ h).length := by
  simp only [length_append, length_nil]
  omega

def longEnvelope : ServerEnvelope (List Char) :=
  ⟨.serverMessage (replicate (2 * 80000) '1'), ['c'], ['s'], 1⟩

theorem piece_fits (segmentId segmentCount : Nat) (piece : Bytes) (numbered : segmentId < 2)
    (counted : segmentCount ∈ [2, remoteControlSegmentCountMax])
    (short : piece.length ≤ 80000) :
    ∃ size, serializedChunkLen textCodec longEnvelope segmentId segmentCount (2 * 80000) piece =
      .ok size ∧ size ≤ remoteControlSegmentMaxBytes := by
  have legal : ∀ count ∈ [2, remoteControlSegmentCountMax],
      ¬ remoteControlSegmentCountMax < count := by decide
  have overhead : ∀ id < 2, ∀ count ∈ [2, remoteControlSegmentCountMax],
      (envelopeText ⟨.serverMessageChunk id count (2 * 80000) [], ['c'], ['s'], 1⟩).length ≤
        1000 := by
    decide +kernel
  have text : (textCodec.encodeBase64 piece).length = piece.length := length_map ..
  rw [serializedChunkLen, buildChunkEnvelope, if_neg (legal _ counted)]
  refine ⟨_, rfl, ?_⟩
  rw [asciiBytes, length_map, longEnvelope]
  refine (length_around ..).trans_le ?_
  rw [text]
  exact (Nat.add_le_add short (overhead _ numbered _ counted)).trans (by decide)

theorem eventText_sublist (envelope : ServerEnvelope (List Char)) :
    (eventText envelope.event).Sublist (envelopeText envelope) := by
  have ended : ∀ front back : List Char, front.Sublist (front ++ back) := sublist_append_left
  exact (((sublist_append_right _ _).trans (ended _ _)).trans (ended _ _)).trans
    (((ended _ _).trans (ended _ _)).trans ((ended _ _).trans ((ended _ _).trans (ended _ _))))

theorem long_measured :
    ∃ size, serializedLen textCodec longEnvelope = .ok size ∧
      remoteControlSegmentMaxBytes < size := by
  refine ⟨_, rfl, ?_⟩
  have inside := ((sublist_append_right _ _).trans (eventText_sublist longEnvelope)).length_le
  rw [length_replicate] at inside
  rw [asciiBytes, length_map]
  exact Nat.lt_of_lt_of_le (by decide) inside

theorem asciiBytes_long : asciiBytes (replicate (2 * 80000) '1') = replicate (2 * 80000) 49 := by
  have digit : UInt8.ofNat '1'.toNat = 49 := by decide
  rw [asciiBytes, map_replicate, digit]

theorem long_fits :
    segmentsFit textCodec longEnvelope (replicate (2 * 80000) 49) 80000 2 = true := by
  rw [segmentsFit_iff, chunks_halves (by decide), length_replicate]
  intro entry listed
  simp only [zipIdx_cons, zipIdx_nil, mem_cons, not_mem_nil, or_false] at listed
  rcases listed with rfl | rfl
  · exact piece_fits 0 2 _ (by decide) (by decide) (length_replicate ..).le
  · exact piece_fits 1 2 _ (by decide) (by decide) (length_replicate ..).le

theorem split_of_large {message : Message} {raw : Bytes} {size minimal : Nat}
    (event : envelope.event = .serverMessage message)
    (measured : serializedLen codec envelope = .ok size)
    (large : remoteControlSegmentMaxBytes < size)
    (serialized : codec.serializeMessage message = .ok raw)
    (legal : raw.length ≤ remoteControlReassembledMaxBytes)
    (least : serializedChunkLen codec envelope 0
      (min (max raw.length 1) remoteControlSegmentCountMax) raw.length (raw.take 1) = .ok minimal)
    (small : minimal ≤ remoteControlSegmentMaxBytes) :
    splitServerEnvelopeForTransport codec envelope =
      splitLoop codec envelope raw (max 2 (raw.length ⌈/⌉ remoteControlSegmentTargetBytes)) := by
  rw [splitServerEnvelopeForTransport, event]
  simp only [measured, serialized, if_neg (Nat.not_le.mpr large), bind, Except.bind,
    if_neg (Nat.not_lt.mpr legal), least, if_neg (Nat.not_lt.mpr small)]

theorem splitLoop_of_fit {raw : Bytes} {segmentCount chunkSize count : Nat}
    (sized : chunkSizeFor raw.length segmentCount = chunkSize)
    (counted : raw.length ⌈/⌉ chunkSize = count)
    (fit : segmentsFit codec envelope raw chunkSize count = true)
    (legal : count ≤ remoteControlSegmentCountMax) :
    splitLoop codec envelope raw segmentCount = .ok ((chunks chunkSize raw).zipIdx.map
      (chunkEnvelope codec envelope count raw.length)) := by
  rw [splitLoop]
  simp only [sized, counted, fit, if_true]
  apply mapM_ok
  intro entry _
  rw [buildChunkEnvelope, if_neg (Nat.not_lt.mpr legal), chunkEnvelope]

theorem long_message_split :
    splitServerEnvelopeForTransport textCodec longEnvelope =
      .ok ([replicate 80000 49, replicate 80000 49].zipIdx.map
        (chunkEnvelope textCodec longEnvelope 2 (2 * 80000))) := by
  have length : (replicate (2 * 80000) (49 : UInt8)).length = 2 * 80000 := length_replicate ..
  have serialized : textCodec.serializeMessage (replicate (2 * 80000) '1') =
      .ok (replicate (2 * 80000) 49) := congrArg Except.ok asciiBytes_long
  obtain ⟨size, measured, large⟩ := long_measured
  obtain ⟨minimal, least, small⟩ := piece_fits 0 remoteControlSegmentCountMax
    ((replicate (2 * 80000) 49).take 1) (by decide) (by decide)
    ((length_take_le 1 _).trans (by decide))
  have loop := splitLoop_of_fit textCodec
    (show chunkSizeFor (replicate (2 * 80000) (49 : UInt8)).length 2 = 80000 by
      rw [length, chunkSizeFor, Nat.ceilDiv_eq_add_pred_div]
      decide)
    (by rw [length, Nat.ceilDiv_eq_add_pred_div]) long_fits (by decide)
  rw [chunks_halves (by decide), length] at loop
  have counted : max 2 ((replicate (2 * 80000) (49 : UInt8)).length ⌈/⌉
      remoteControlSegmentTargetBytes) = 2 := by
    rw [length, Nat.ceilDiv_eq_add_pred_div]
    decide
  have whole := split_of_large textCodec rfl measured large serialized (by rw [length]; decide)
    (by rw [length]; exact least) small
  rw [counted] at whole
  exact whole.trans loop

theorem long_message_segmented :
    ∃ returned, splitServerEnvelopeForTransport textCodec longEnvelope = .ok returned ∧
      returned.length = 2 ∧ (∀ each ∈ returned, FitsTransport textCodec each) ∧
      Segmented textCodec longEnvelope (replicate (2 * 80000) 49) returned := by
  obtain ⟨size, measured, _⟩ := long_measured
  obtain ⟨fit, whole | nothing | ⟨raw, serialized, segmented⟩⟩ :=
    (segmentation_lossless textCodec longEnvelope).1 _ size rfl measured _ long_message_split
  · exact absurd (congrArg length whole) (by decide)
  · exact absurd (congrArg length nothing) (by decide)
  · rw [← asciiBytes_long, Except.ok.inj serialized]
    exact ⟨_, long_message_split, rfl, fit, segmented⟩

/-- A pong to a client with a long id is sent whole. -/
theorem pong_exceeds_limit :
    splitServerEnvelopeForTransport textCodec
        ⟨.pong .active, replicate 160000 'c', ['s'], 1⟩ =
      .ok [⟨.pong .active, replicate 160000 'c', ['s'], 1⟩] ∧
      ¬ FitsTransport textCodec ⟨.pong .active, replicate 160000 'c', ['s'], 1⟩ := by
  refine ⟨rfl, ?_⟩
  intro fits
  obtain ⟨size, measured, small⟩ := fits
  cases measured
  have long := clientId_length_le ⟨.pong .active, replicate 160000 'c', ['s'], 1⟩
  rw [length_replicate] at long
  exact absurd (Nat.le_trans long small) (by decide)

end OpenInterpreter.ServerSegments
