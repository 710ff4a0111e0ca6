import Mathlib.Data.List.Basic

/-! Envelopes of the remote-control transport:
`app-server-transport/src/transport/remote_control/protocol.rs` and the limits of `segment.rs`. -/

namespace OpenInterpreter.RemoteControl

abbrev Bytes := List UInt8

abbrev ClientId := List Char

abbrev StreamId := List Char

def remoteControlSegmentTargetBytes : Nat := 100 * 1024

def remoteControlSegmentMaxBytes : Nat := 150 * 1024

def remoteControlReassembledMaxBytes : Nat := 100 * 1024 * 1024

def remoteControlSegmentCountMax : Nat := 1024

def remoteControlSegmentAssemblyMaxCount : Nat := 128

inductive PongStatus where
  | active
  | unknown
  deriving DecidableEq

variable (Message : Type)

inductive ServerEvent where
  | serverMessage (message : Message)
  | serverMessageChunk (segmentId segmentCount messageSizeBytes : Nat)
      (messageChunkBase64 : List Char)
  | ack
  | pong (status : PongStatus)
  deriving DecidableEq

def ServerEvent.segmentId {Message : Type} : ServerEvent Message → Option Nat
  | .serverMessageChunk segmentId _ _ _ => some segmentId
  | _ => none

def ServerEvent.segmentCount {Message : Type} : ServerEvent Message → Option Nat
  | .serverMessageChunk _ segmentCount _ _ => some segmentCount
  | _ => none

def ServerEvent.chunkBase64 {Message : Type} : ServerEvent Message → Option (List Char)
  | .serverMessageChunk _ _ _ messageChunkBase64 => some messageChunkBase64
  | _ => none

structure ServerEnvelope where
  event : ServerEvent Message
  clientId : ClientId
  streamId : StreamId
  seqId : Nat
  deriving DecidableEq

inductive ClientEvent where
  | clientMessage (message : Message)
  | clientMessageChunk (segmentId segmentCount messageSizeBytes : Nat)
      (messageChunkBase64 : List Char)
  | ack (segmentId : Option Nat)
  | ping
  | clientClosed
  deriving DecidableEq

structure ClientEnvelope where
  event : ClientEvent Message
  clientId : ClientId
  streamId : Option StreamId
  seqId : Option Nat
  cursor : Option String
  deriving DecidableEq

end OpenInterpreter.RemoteControl
