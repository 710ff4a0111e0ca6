import OpenInterpreter.KeyedList
import OpenInterpreter.RemoteControl

/-! Inbound reassembly: `ClientSegmentReassembler` of
`app-server-transport/src/transport/remote_control/segment.rs`. -/

namespace OpenInterpreter.ClientSegments

open KeyedList RemoteControl List

/-- JSON and base64 as the reassembler uses them. The estimate of a text's decoded length is never
below it. -/
structure ClientCodec (Message : Type) where
  decodeBase64 : List Char → Option Bytes
  decodedLenEstimate : Nat → Nat
  estimate_covers : ∀ text bytes, decodeBase64 text = some bytes →
    bytes.length ≤ decodedLenEstimate text.length
  parseMessage : Bytes → Option Message

structure ClientSegmentMetadata where
  seqId : Nat
  segmentCount : Nat
  messageSizeBytes : Nat
  deriving DecidableEq

structure ClientSegmentAssembly where
  streamId : StreamId
  metadata : ClientSegmentMetadata
  raw : Bytes
  nextSegmentId : Nat
  lastChunkSeenAt : Nat
  deriving DecidableEq

abbrev Assemblies := List (ClientId × ClientSegmentAssembly)

structure MapOrder where
  order : Assemblies → Assemblies
  perm : ∀ assemblies, (order assemblies).Perm assemblies

inductive ClientSegmentObservation (Message : Type) where
  | forward (envelope : ClientEnvelope Message)
  | pending
  | dropped
  deriving DecidableEq

inductive AssemblyUpdate (Message : Type) where
  | pending
  | ignore
  | drop
  | complete (message : Message)
  deriving DecidableEq

inductive DecodeSliceError where
  | decodeError
  | outputSliceTooSmall
  deriving DecidableEq

variable (assemblies : Assemblies)

def shouldIgnoreChunk (clientId : ClientId) (streamId : StreamId) (seqId segmentId : Nat) : Bool :=
  (get clientId assemblies).any fun assembly =>
    assembly.streamId = streamId ∧ (seqId < assembly.metadata.seqId ∨
        seqId = assembly.metadata.seqId ∧ segmentId < assembly.nextSegmentId)

/-- `remove_assembly`, and `invalidate_stream`. -/
def removeAssembly (clientId : ClientId) (streamId : StreamId) : Assemblies :=
  if (get clientId assemblies).any fun assembly => assembly.streamId = streamId then
    remove clientId assemblies
  else assemblies

def invalidateClient (clientId : ClientId) : Assemblies :=
  remove clientId assemblies

def leastRecent : Assemblies → Option (ClientId × ClientSegmentAssembly)
  | [] => none
  | entry :: rest =>
    match leastRecent rest with
    | none => some entry
    | some least =>
      if entry.2.lastChunkSeenAt ≤ least.2.lastChunkSeenAt then some entry else some least

/-- The loop of `evict_assemblies_if_full`. Each turn removes an assembly. -/
def evictLoop (map : MapOrder) : Nat → Assemblies → Assemblies
  | 0, assemblies => assemblies
  | turns + 1, assemblies =>
    if remoteControlSegmentAssemblyMaxCount ≤ assemblies.length then
      match leastRecent (map.order assemblies) with
      | none => assemblies
      | some least => evictLoop map turns (remove least.1 assemblies)
    else assemblies

def evictAssembliesIfFull (map : MapOrder) (assemblies : Assemblies) : Assemblies :=
  evictLoop map assemblies.length assemblies

def openAssembly (map : MapOrder) (assemblies : Assemblies) (now : Nat) (clientId : ClientId)
    (streamId : StreamId) (metadata : ClientSegmentMetadata) : Assemblies :=
  match get clientId assemblies with
  | some assembly =>
    if assembly.streamId ≠ streamId then
      insert clientId ⟨streamId, metadata, [], 0, now⟩ assemblies
    else assemblies
  | none =>
    insert clientId ⟨streamId, metadata, [], 0, now⟩ (evictAssembliesIfFull map assemblies)

variable {Message : Type} (codec : ClientCodec Message)

def metadataOf (envelope : ClientEnvelope Message) : Option ClientSegmentMetadata :=
  match envelope.event with
  | .clientMessageChunk _ segmentCount messageSizeBytes _ =>
    envelope.seqId.map fun seqId => ⟨seqId, segmentCount, messageSizeBytes⟩
  | _ => none

def decodeSlice (text : List Char) (room : Nat) : Except DecodeSliceError Bytes :=
  match codec.decodeBase64 text with
  | none => .error .decodeError
  | some bytes => if room < bytes.length then .error .outputSliceTooSmall else .ok bytes

def appendChunk (raw : Bytes) (messageSizeBytes : Nat) (messageChunkBase64 : List Char) :
    Except DecodeSliceError Bytes :=
  let chunkStart := raw.length
  let decodedChunkLen := codec.decodedLenEstimate messageChunkBase64.length
  let chunkEnd := min messageSizeBytes (chunkStart + decodedChunkLen)
  (decodeSlice codec messageChunkBase64 (chunkEnd - chunkStart)).map fun bytes => raw ++ bytes

def updateAssembly (assembly : ClientSegmentAssembly) (now : Nat)
    (metadata : ClientSegmentMetadata) (segmentId : Nat) (messageChunkBase64 : List Char) :
    AssemblyUpdate Message × ClientSegmentAssembly :=
  if metadata.seqId < assembly.metadata.seqId then (.ignore, assembly)
  else if assembly.metadata ≠ metadata then (.drop, assembly)
  else if segmentId < assembly.nextSegmentId then (.pending, assembly)
  else if segmentId ≠ assembly.nextSegmentId then (.drop, assembly)
  else
    match appendChunk codec assembly.raw metadata.messageSizeBytes messageChunkBase64 with
    | .error _ => (.drop, { assembly with lastChunkSeenAt := now })
    | .ok raw =>
      let updated : ClientSegmentAssembly := { assembly with
          raw := raw, nextSegmentId := assembly.nextSegmentId + 1, lastChunkSeenAt := now }
      if updated.nextSegmentId < metadata.segmentCount then (.pending, updated)
      else if raw.length ≠ metadata.messageSizeBytes then (.drop, updated)
      else
        match codec.parseMessage raw with
        | some message => (.complete message, updated)
        | none => (.drop, updated)

def invalidChunk (segmentId segmentCount messageSizeBytes : Nat) (messageChunkBase64 : List Char) :
    Bool :=
  segmentCount = 0 ∨ remoteControlSegmentCountMax < segmentCount ∨ segmentCount ≤ segmentId ∨
    messageSizeBytes = 0 ∨ remoteControlReassembledMaxBytes < messageSizeBytes ∨
    messageChunkBase64.isEmpty

def observe (map : MapOrder) (assemblies : Assemblies) (now : Nat)
    (envelope : ClientEnvelope Message) : ClientSegmentObservation Message × Assemblies :=
  match envelope.event with
  | .clientMessageChunk segmentId segmentCount messageSizeBytes messageChunkBase64 =>
    match metadataOf envelope with
    | none => (.dropped, assemblies)
    | some metadata =>
      match envelope.streamId with
      | none => (.dropped, assemblies)
      | some streamId =>
        if shouldIgnoreChunk assemblies envelope.clientId streamId metadata.seqId segmentId
        then (.dropped, assemblies)
        else if invalidChunk segmentId segmentCount messageSizeBytes messageChunkBase64 then
          (.dropped, removeAssembly assemblies envelope.clientId streamId)
        else
          let opened := openAssembly map assemblies now envelope.clientId streamId metadata
          match get envelope.clientId opened with
          | none => (.dropped, opened)
          | some assembly =>
            let updated := updateAssembly codec assembly now metadata segmentId messageChunkBase64
            let stored := insert envelope.clientId updated.2 opened
            match updated.1 with
            | .pending => (.pending, stored)
            | .ignore => (.dropped, stored)
            | .drop => (.dropped, removeAssembly stored envelope.clientId streamId)
            | .complete message =>
              (.forward { envelope with event := .clientMessage message },
                removeAssembly stored envelope.clientId streamId)
  | _ => (.forward envelope, assemblies)

variable {assemblies : Assemblies}

theorem leastRecent_mem {least : ClientId × ClientSegmentAssembly}
    (found : leastRecent assemblies = some least) : least ∈ assemblies := by
  induction assemblies generalizing least with
  | nil => cases found
  | cons entry rest ih =>
    rw [leastRecent] at found
    split at found
    · cases found
      exact mem_cons_self
    · rename_i later laterFound
      split at found
      · cases found
        exact mem_cons_self
      · cases found
        exact mem_cons_of_mem _ (ih laterFound)

theorem leastRecent_eq_none (none_found : leastRecent assemblies = none) : assemblies = [] := by
  cases assemblies with
  | nil => rfl
  | cons entry rest =>
    rw [leastRecent] at none_found
    split at none_found
    · cases none_found
    · split at none_found <;> cases none_found

variable (map : MapOrder)

theorem evictLoop_length_lt {turns : Nat} (enough : assemblies.length ≤ turns) :
    (evictLoop map turns assemblies).length < remoteControlSegmentAssemblyMaxCount := by
  induction turns generalizing assemblies with
  | zero => exact Nat.lt_of_le_of_lt enough (by decide)
  | succ turns ih =>
    rw [evictLoop]
    split
    · rename_i full
      cases found : leastRecent (map.order assemblies) with
      | none =>
        have empty := (map.perm assemblies).length_eq
        rw [leastRecent_eq_none found] at empty
        rw [← empty] at full
        exact absurd full (by decide)
      | some least =>
        have listed := (map.perm assemblies).mem_iff.mp (leastRecent_mem found)
        have fewer := length_remove_lt (mem_keys listed)
        exact ih (by omega)
    · rename_i room
      exact Nat.lt_of_not_le room

theorem evictLoop_sublist (turns : Nat) (assemblies : Assemblies) :
    (evictLoop map turns assemblies).Sublist assemblies := by
  induction turns generalizing assemblies with
  | zero => exact .refl _
  | succ turns ih =>
    rw [evictLoop]
    split
    · split
      · exact .refl _
      · exact (ih _).trans filter_sublist
    · exact .refl _

theorem evictAssembliesIfFull_of_room
    (room : assemblies.length < remoteControlSegmentAssemblyMaxCount) :
    evictAssembliesIfFull map assemblies = assemblies := by
  rw [evictAssembliesIfFull]
  cases assemblies with
  | nil => rfl
  | cons entry rest => rw [length_cons, evictLoop, if_neg (Nat.not_le.mpr room)]

structure Bounded (assemblies : Assemblies) : Prop where
  distinct : (keys assemblies).Nodup
  few : assemblies.length ≤ remoteControlSegmentAssemblyMaxCount
  sized : ∀ entry ∈ assemblies, entry.2.raw.length ≤ entry.2.metadata.messageSizeBytes

theorem Bounded.nil : Bounded [] := ⟨nodup_nil, Nat.zero_le _, by simp⟩

theorem Bounded.sublist {kept : Assemblies} (bounded : Bounded assemblies)
    (sublist : kept.Sublist assemblies) : Bounded kept where
  distinct := bounded.distinct.sublist (sublist.map Prod.fst)
  few := Nat.le_trans sublist.length_le bounded.few
  sized entry listed := bounded.sized entry (sublist.subset listed)

theorem removeAssembly_sublist (assemblies : Assemblies) (clientId : ClientId)
    (streamId : StreamId) : (removeAssembly assemblies clientId streamId).Sublist assemblies := by
  rw [removeAssembly]
  split
  · exact filter_sublist
  · exact .refl _

variable {assembly : ClientSegmentAssembly}

theorem Bounded.insert {clientId : ClientId} (bounded : Bounded assemblies)
    (room : clientId ∈ keys assemblies ∨ assemblies.length < remoteControlSegmentAssemblyMaxCount)
    (size : assembly.raw.length ≤ assembly.metadata.messageSizeBytes) :
    Bounded (insert clientId assembly assemblies) where
  distinct := nodup_insert clientId assembly bounded.distinct
  few := by
    cases room with
    | inl present =>
      rw [length_insert_of_mem assembly present]
      exact bounded.few
    | inr fewer => exact Nat.le_trans (length_insert_le clientId assembly assemblies) fewer
  sized entry listed := by
    cases mem_of_mem_insert listed with
    | inl new =>
      rw [new]
      exact size
    | inr old => exact bounded.sized entry old

theorem Bounded.openAssembly (bounded : Bounded assemblies) (map : MapOrder) (now : Nat)
    (clientId : ClientId) (streamId : StreamId) (metadata : ClientSegmentMetadata) :
    Bounded (openAssembly map assemblies now clientId streamId metadata) := by
  rw [ClientSegments.openAssembly]
  split
  · rename_i assembly found
    split
    · exact bounded.insert (.inl (mem_keys (mem_of_get found))) (Nat.zero_le _)
    · exact bounded
  · have evicted := bounded.sublist (evictLoop_sublist map assemblies.length assemblies)
    exact evicted.insert (.inr (evictLoop_length_lt map (Nat.le_refl _))) (Nat.zero_le _)

theorem appendChunk_length_le {raw extended : Bytes} {messageSizeBytes : Nat} {text : List Char}
    (sized : raw.length ≤ messageSizeBytes)
    (appended : appendChunk codec raw messageSizeBytes text = .ok extended) :
    extended.length ≤ messageSizeBytes := by
  rw [appendChunk, decodeSlice] at appended
  split at appended
  · cases appended
  · split at appended
    · cases appended
    · cases appended
      rw [length_append]
      omega

theorem updateAssembly_sized (now : Nat) (metadata : ClientSegmentMetadata) (segmentId : Nat)
    (text : List Char) (sized : assembly.raw.length ≤ assembly.metadata.messageSizeBytes) :
    (updateAssembly codec assembly now metadata segmentId text).2.raw.length ≤
      (updateAssembly codec assembly now metadata segmentId text).2.metadata.messageSizeBytes := by
  unfold updateAssembly
  split
  · exact sized
  · split
    · exact sized
    · rename_i same
      split
      · exact sized
      · split
        · exact sized
        · cases appended : appendChunk codec assembly.raw metadata.messageSizeBytes text with
          | error error => exact sized
          | ok raw =>
            have equal : assembly.metadata = metadata := not_not.mp same
            rw [equal] at sized
            have grown := appendChunk_length_le codec sized appended
            rw [← equal] at grown
            dsimp only
            split
            · exact grown
            · split
              · exact grown
              · split <;> exact grown

theorem Bounded.observe (bounded : Bounded assemblies) (map : MapOrder) (now : Nat)
    (envelope : ClientEnvelope Message) :
    Bounded (observe codec map assemblies now envelope).2 := by
  rw [ClientSegments.observe]
  split
  · rename_i segmentId _ _ text _
    split
    · exact bounded
    · rename_i metadata _
      split
      · exact bounded
      · rename_i streamId _
        split
        · exact bounded
        · split
          · exact bounded.sublist (removeAssembly_sublist _ _ _)
          · have opened := bounded.openAssembly map now envelope.clientId streamId metadata
            dsimp only
            split
            · exact opened
            · rename_i assembly found
              have entry := mem_of_get found
              have stored := opened.insert (.inl (mem_keys entry))
                (updateAssembly_sized codec now metadata segmentId text (opened.sized _ entry))
              split
              · exact stored
              · exact stored
              · exact stored.sublist (removeAssembly_sublist _ _ _)
              · exact stored.sublist (removeAssembly_sublist _ _ _)
  · exact bounded

end OpenInterpreter.ClientSegments
