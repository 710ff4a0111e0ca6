import OpenInterpreter.ClientSegments

/-! Inbound client messages: `WebsocketState` and the reader loop of
`app-server-transport/src/transport/remote_control/websocket.rs`. -/

namespace OpenInterpreter.InboundMessages

open KeyedList RemoteControl ClientSegments

structure WebsocketState where
  subscribeCursor : Option String
  lastCompletedClientChunkSeqIdByStream : List ((ClientId × Option StreamId) × Nat)
  clientSegmentReassembler : Assemblies
  deriving DecidableEq

variable {Message : Type} (codec : ClientCodec Message) (map : MapOrder)

def clientMessageKey (envelope : ClientEnvelope Message) :
    Option ((ClientId × Option StreamId) × Nat) :=
  match envelope.event, envelope.seqId with
  | .clientMessageChunk _ _ _ _, some seqId => some ((envelope.clientId, envelope.streamId), seqId)
  | _, _ => none

variable (state : WebsocketState)

def alreadyCompleted (envelope : ClientEnvelope Message) : Bool :=
  (clientMessageKey envelope).any fun entry =>
    (get entry.1 state.lastCompletedClientChunkSeqIdByStream).any fun lastSeqId =>
      entry.2 ≤ lastSeqId

def alreadyAssembled (envelope : ClientEnvelope Message) : Bool :=
  match clientMessageKey envelope, envelope.streamId, envelope.event with
  | some (_, seqId), some streamId, .clientMessageChunk segmentId _ _ _ =>
    shouldIgnoreChunk state.clientSegmentReassembler envelope.clientId streamId seqId segmentId
  | _, _, _ => false

def observeClientMessage (now : Nat) (envelope : ClientEnvelope Message)
    (wireSizeBytes : Nat) : ClientSegmentObservation Message × WebsocketState :=
  if alreadyCompleted state envelope then (.dropped, state)
  else if alreadyAssembled state envelope then (.dropped, state)
  else if (clientMessageKey envelope).isSome ∧ remoteControlSegmentMaxBytes < wireSizeBytes then
    match envelope.streamId with
    | some streamId =>
      (.dropped, { state with
        clientSegmentReassembler :=
          removeAssembly state.clientSegmentReassembler envelope.clientId streamId })
    | none => (.dropped, state)
  else
    let observed := observe codec map state.clientSegmentReassembler now envelope
    (observed.1, { state with clientSegmentReassembler := observed.2 })

def recordClientMessageDelivery (envelope : ClientEnvelope Message)
    (key : Option ((ClientId × Option StreamId) × Nat)) : WebsocketState :=
  { state with
    subscribeCursor := envelope.cursor.or state.subscribeCursor
    lastCompletedClientChunkSeqIdByStream :=
      match key with
      | some (key, seqId) => insert key seqId state.lastCompletedClientChunkSeqIdByStream
      | none => state.lastCompletedClientChunkSeqIdByStream }

def invalidateClientMessageStream (clientId : ClientId) (streamId : StreamId) : WebsocketState :=
  { state with
    lastCompletedClientChunkSeqIdByStream :=
      remove (clientId, some streamId) state.lastCompletedClientChunkSeqIdByStream }

def invalidateClientMessageClient (clientId : ClientId) : WebsocketState :=
  { state with
    lastCompletedClientChunkSeqIdByStream :=
      state.lastCompletedClientChunkSeqIdByStream.filter fun entry => entry.1.1 ≠ clientId }

def forgetClosed (clientId : ClientId) (streamId : Option StreamId) : WebsocketState :=
  match streamId with
  | some streamId =>
    invalidateClientMessageStream
      { state with
        clientSegmentReassembler :=
          removeAssembly state.clientSegmentReassembler clientId streamId }
      clientId streamId
  | none =>
    invalidateClientMessageClient
      { state with
        clientSegmentReassembler := invalidateClient state.clientSegmentReassembler clientId }
      clientId

/-- The reader loop's turn for one envelope: what it hands to the client tracker, which takes it,
and the state after. -/
def handleClientEnvelope (now : Nat) (envelope : ClientEnvelope Message)
    (wireSizeBytes : Nat) : Option (ClientEnvelope Message) × WebsocketState :=
  match observeClientMessage codec map state now envelope wireSizeBytes with
  | (.forward forwarded, observed) =>
    let recorded := recordClientMessageDelivery observed forwarded (clientMessageKey envelope)
    match forwarded.event with
    | .clientClosed =>
      (some forwarded, forgetClosed recorded forwarded.clientId forwarded.streamId)
    | _ => (some forwarded, recorded)
  | (_, observed) => (none, observed)

variable {state : WebsocketState} (bounded : Bounded state.clientSegmentReassembler)
include bounded

theorem observeClientMessage_bounded
    (now : Nat) (envelope : ClientEnvelope Message) (wireSizeBytes : Nat) :
    Bounded (observeClientMessage codec map state now envelope
      wireSizeBytes).2.clientSegmentReassembler := by
  rw [observeClientMessage]
  split
  · exact bounded
  · split
    · exact bounded
    · split
      · split
        · exact bounded.sublist (removeAssembly_sublist _ _ _)
        · exact bounded
      · exact bounded.observe codec map now envelope

theorem forgetClosed_bounded (clientId : ClientId) (streamId : Option StreamId) :
    Bounded (forgetClosed state clientId streamId).clientSegmentReassembler := by
  cases streamId with
  | some streamId => exact bounded.sublist (removeAssembly_sublist _ _ _)
  | none => exact bounded.sublist List.filter_sublist

theorem handleClientEnvelope_bounded
    (now : Nat) (envelope : ClientEnvelope Message) (wireSizeBytes : Nat) :
    Bounded (handleClientEnvelope codec map state now envelope
      wireSizeBytes).2.clientSegmentReassembler := by
  have observed := observeClientMessage_bounded codec map bounded now envelope wireSizeBytes
  rw [handleClientEnvelope]
  split
  · rename_i forwarded after same
    rw [same] at observed
    have recorded : Bounded (recordClientMessageDelivery after forwarded
        (clientMessageKey envelope)).clientSegmentReassembler := observed
    split
    · exact forgetClosed_bounded recorded _ _
    · exact recorded
  · rename_i same
    rw [same] at observed
    exact observed

end OpenInterpreter.InboundMessages
