import OpenInterpreter.InboundMessages

/-! Streams that send their messages in chunks, interleaved and with retransmissions, against the
reader loop. -/

namespace OpenInterpreter.ReassembledOnce

open KeyedList RemoteControl ClientSegments InboundMessages List Option

variable {Message : Type}

/-- A message as a stream sends it: texts that decode to the pieces of its JSON bytes. -/
structure ChunkedMessage (codec : ClientCodec Message) where
  message : Message
  seqId : Nat
  chunks : List (List Char)
  pieces : List Bytes
  decoded : chunks.map codec.decodeBase64 = pieces.map some
  parsed : codec.parseMessage pieces.flatten = some message
  count_le : chunks.length ≤ remoteControlSegmentCountMax
  size_pos : 0 < pieces.flatten.length
  size_le : pieces.flatten.length ≤ remoteControlReassembledMaxBytes
  texts : ∀ text ∈ chunks, text ≠ []

variable (map : MapOrder) {segmentId : Nat} {codec : ClientCodec Message}
  {pair : ClientId × StreamId}

namespace ChunkedMessage

variable (sent : ChunkedMessage codec)

def metadata : ClientSegmentMetadata := ⟨sent.seqId, sent.chunks.length, sent.pieces.flatten.length⟩

def envelope (pair : ClientId × StreamId) (segmentId : Nat) (text : List Char)
    (cursor : Option String) : ClientEnvelope Message :=
  ⟨.clientMessageChunk segmentId sent.chunks.length sent.pieces.flatten.length text, pair.1,
    some pair.2, some sent.seqId, cursor⟩

def assembly (streamId : StreamId) (part seenAt : Nat) : ClientSegmentAssembly :=
  ⟨streamId, sent.metadata, (sent.pieces.take part).flatten, part, seenAt⟩

variable {part : Nat} {text : List Char} {assemblies : Assemblies}

theorem piece_of_chunk (chunk : sent.chunks[part]? = some text) :
    ∃ piece, sent.pieces[part]? = some piece ∧ codec.decodeBase64 text = some piece := by
  have same := congrArg (fun list => list[part]?) sent.decoded
  simp only [getElem?_map, chunk] at same
  cases found : sent.pieces[part]? with
  | none => simp [found] at same
  | some piece =>
    rw [found] at same
    exact ⟨piece, rfl, some.inj same⟩

theorem pieces_length : sent.pieces.length = sent.chunks.length := by
  have same := congrArg List.length sent.decoded
  simpa using same.symm

theorem appendChunk_next (chunk : sent.chunks[part]? = some text) :
    appendChunk codec (sent.pieces.take part).flatten sent.metadata.messageSizeBytes text =
      .ok (sent.pieces.take (part + 1)).flatten := by
  obtain ⟨piece, found, decoded⟩ := sent.piece_of_chunk chunk
  have extended : (sent.pieces.take (part + 1)).flatten =
      (sent.pieces.take part).flatten ++ piece := by
    rw [take_add_one, found]
    simp
  have covered : (sent.pieces.take (part + 1)).flatten.length ≤ sent.pieces.flatten.length := by
    have whole := congrArg (fun list => list.flatten.length)
      (take_append_drop (part + 1) sent.pieces)
    simp only [flatten_append, length_append] at whole
    omega
  rw [extended, length_append] at covered
  have estimated := codec.estimate_covers text piece decoded
  have room : ¬ min sent.pieces.flatten.length
      ((sent.pieces.take part).flatten.length + codec.decodedLenEstimate text.length) -
      (sent.pieces.take part).flatten.length < piece.length := by
    omega
  rw [appendChunk, decodeSlice, decoded, extended, metadata]
  simp only [if_neg room]
  rfl

theorem not_invalidChunk (chunk : sent.chunks[part]? = some text) :
    invalidChunk part sent.chunks.length sent.pieces.flatten.length text = false := by
  have bound := (List.getElem?_eq_some_iff.mp chunk).1
  have text_ne := sent.texts text (mem_of_getElem? chunk)
  have count_le := sent.count_le
  have size_pos := sent.size_pos
  have size_le := sent.size_le
  simp only [invalidChunk, decide_eq_false_iff_not, List.isEmpty_iff, not_or]
  exact ⟨by omega, by omega, by omega, by omega, by omega, text_ne⟩

theorem updateAssembly_next (streamId : StreamId) (seenAt now : Nat)
    (chunk : sent.chunks[part]? = some text) :
    updateAssembly codec (sent.assembly streamId part seenAt) now sent.metadata part text =
      (if part + 1 < sent.chunks.length then .pending else .complete sent.message,
        sent.assembly streamId (part + 1) now) := by
  rw [updateAssembly]
  simp only [assembly, sent.appendChunk_next chunk]
  have count : sent.metadata.segmentCount = sent.chunks.length := rfl
  by_cases more : part + 1 < sent.chunks.length
  · simp [count, if_pos more]
  · have whole : (sent.pieces.take (part + 1)).flatten = sent.pieces.flatten := by
      rw [take_of_length_le]
      have pieces := sent.pieces_length
      omega
    have size : sent.metadata.messageSizeBytes = sent.pieces.flatten.length := rfl
    simp [count, if_neg more, whole, size, sent.parsed]

/-- The client's assembly is of another stream, or it has none and there is room for one. -/
def Vacant (assemblies : Assemblies) (pair : ClientId × StreamId) : Prop :=
  (∃ other, get pair.1 assemblies = some other ∧ other.streamId ≠ pair.2) ∨
    get pair.1 assemblies = none ∧ assemblies.length < remoteControlSegmentAssemblyMaxCount

/-- The client's assembly holds the message's first chunks, or there are none yet. -/
def Holds (assemblies : Assemblies) (pair : ClientId × StreamId) (part : Nat) : Prop :=
  (∃ seenAt, get pair.1 assemblies = some (sent.assembly pair.2 part seenAt)) ∨
    part = 0 ∧ Vacant assemblies pair

theorem shouldIgnoreChunk_vacant (vacant : Vacant assemblies pair) (seqId segmentId : Nat) :
    shouldIgnoreChunk assemblies pair.1 pair.2 seqId segmentId = false := by
  rcases vacant with ⟨other, found, differs⟩ | ⟨missing, -⟩
  · simp [shouldIgnoreChunk, found, differs]
  · simp [shouldIgnoreChunk, missing]

theorem shouldIgnoreChunk_next (holds : sent.Holds assemblies pair part) :
    shouldIgnoreChunk assemblies pair.1 pair.2 sent.seqId part = false := by
  rcases holds with ⟨seenAt, found⟩ | ⟨-, vacant⟩
  · simp [shouldIgnoreChunk, found, assembly, metadata]
  · exact shouldIgnoreChunk_vacant vacant ..

theorem openAssembly_vacant (now : Nat) (vacant : Vacant assemblies pair) :
    openAssembly map assemblies now pair.1 pair.2 sent.metadata =
      insert pair.1 (sent.assembly pair.2 0 now) assemblies := by
  rcases vacant with ⟨other, found, differs⟩ | ⟨missing, room⟩
  · simp [openAssembly, found, differs, assembly]
  · simp [openAssembly, missing, evictAssembliesIfFull_of_room map room, assembly]

theorem openAssembly_next (now : Nat) (holds : sent.Holds assemblies pair part) :
    (∃ seenAt, get pair.1 (openAssembly map assemblies now pair.1 pair.2 sent.metadata) =
        some (sent.assembly pair.2 part seenAt)) ∧
      ∀ other, other ≠ pair.1 →
        get other (openAssembly map assemblies now pair.1 pair.2 sent.metadata) =
          get other assemblies := by
  rcases holds with ⟨seenAt, found⟩ | ⟨start, vacant⟩
  · have kept : openAssembly map assemblies now pair.1 pair.2 sent.metadata = assemblies := by
      simp [openAssembly, found, assembly]
    rw [kept]
    exact ⟨⟨seenAt, found⟩, fun _ _ => rfl⟩
  · rw [sent.openAssembly_vacant map now vacant, start]
    constructor
    · exact ⟨now, by rw [get_insert, if_pos rfl]⟩
    · intro other differs
      rw [get_insert, if_neg (Ne.symm differs)]

theorem get_removeAssembly (seenAt : Nat) (assemblies : Assemblies) (other : ClientId) :
    get other (removeAssembly (insert pair.1 (sent.assembly pair.2 part seenAt) assemblies) pair.1
      pair.2) = if pair.1 = other then none else get other assemblies := by
  have stored : get pair.1 (insert pair.1 (sent.assembly pair.2 part seenAt) assemblies) =
      some (sent.assembly pair.2 part seenAt) := by
    rw [get_insert, if_pos rfl]
  rw [removeAssembly, stored]
  simp only [assembly, any_some, decide_true, if_true]
  rw [get_remove, get_insert]
  split <;> rfl

def observation (pair : ClientId × StreamId) (part : Nat) (cursor : Option String) :
    ClientSegmentObservation Message :=
  if part + 1 < sent.chunks.length then .pending
  else .forward ⟨.clientMessage sent.message, pair.1, some pair.2, some sent.seqId, cursor⟩

theorem observe_next (now : Nat) (cursor : Option String)
    (chunk : sent.chunks[part]? = some text) (holds : sent.Holds assemblies pair part) :
    ∃ after, observe codec map assemblies now (sent.envelope pair part text cursor) =
        (sent.observation pair part cursor, after) ∧
      (∀ other, other ≠ pair.1 → get other after = get other assemblies) ∧
      get pair.1 after =
        if part + 1 < sent.chunks.length then some (sent.assembly pair.2 (part + 1) now)
        else none := by
  obtain ⟨⟨seenAt, found⟩, frame⟩ := sent.openAssembly_next map now holds
  have metadata_eq : metadataOf (sent.envelope pair part text cursor) = some sent.metadata := rfl
  have update := sent.updateAssembly_next pair.2 seenAt now chunk
  have ignored : shouldIgnoreChunk assemblies pair.1 pair.2 sent.metadata.seqId part = false :=
    sent.shouldIgnoreChunk_next holds
  have valid := sent.not_invalidChunk chunk
  generalize opening : openAssembly map assemblies now pair.1 pair.2 sent.metadata = opened at *
  rw [observe, metadata_eq]
  simp only [envelope, opening, found, update, ignored, valid, observation]
  by_cases more : part + 1 < sent.chunks.length
  · simp only [if_pos more]
    refine ⟨_, rfl, fun other differs => ?_, ?_⟩
    · rw [get_insert, if_neg (Ne.symm differs), frame other differs]
    · rw [get_insert, if_pos rfl]
  · simp only [if_neg more]
    refine ⟨_, rfl, fun other differs => ?_, ?_⟩
    · rw [get_removeAssembly, if_neg (Ne.symm differs), frame other differs]
    · rw [get_removeAssembly, if_pos rfl]

/-- A chunk other than the first one, of a message that is not assembled, ends the assembly that
the client has. -/
theorem observe_stray (now : Nat) (cursor : Option String) (chunk : sent.chunks[part]? = some text)
    (vacant : Vacant assemblies pair) (started : 0 < part) :
    ∃ after, observe codec map assemblies now (sent.envelope pair part text cursor) =
        (.dropped, after) ∧
      (∀ other, other ≠ pair.1 → get other after = get other assemblies) ∧
      get pair.1 after = none := by
  have metadata_eq : metadataOf (sent.envelope pair part text cursor) = some sent.metadata := rfl
  have ignored := shouldIgnoreChunk_vacant vacant sent.metadata.seqId part
  have valid := sent.not_invalidChunk chunk
  have found : get pair.1 (insert pair.1 (sent.assembly pair.2 0 now) assemblies) =
      some (sent.assembly pair.2 0 now) := by
    rw [get_insert, if_pos rfl]
  have update : updateAssembly codec (sent.assembly pair.2 0 now) now sent.metadata part text =
      (.drop, sent.assembly pair.2 0 now) := by
    simp [updateAssembly, assembly, Nat.ne_of_gt started]
  rw [observe, metadata_eq]
  simp only [envelope, sent.openAssembly_vacant map now vacant, found, update, ignored, valid]
  refine ⟨_, rfl, fun other differs => ?_, ?_⟩
  · rw [get_removeAssembly, if_neg (Ne.symm differs), get_insert, if_neg (Ne.symm differs)]
  · rw [get_removeAssembly, if_pos rfl]

def Completed (state : WebsocketState) (pair : ClientId × StreamId) (seqId : Nat) : Prop :=
  ∃ last, get (pair.1, some pair.2) state.lastCompletedClientChunkSeqIdByStream = some last ∧
    seqId ≤ last

theorem alreadyCompleted_iff (state : WebsocketState) (pair : ClientId × StreamId)
    (segmentId : Nat) (text : List Char) (cursor : Option String) :
    alreadyCompleted state (sent.envelope pair segmentId text cursor) = true ↔
      Completed state pair sent.seqId := by
  cases found : get (pair.1, some pair.2) state.lastCompletedClientChunkSeqIdByStream with
  | none | some => simp [alreadyCompleted, clientMessageKey, envelope, Completed, found]

theorem handle_again {state : WebsocketState}
    (text : List Char) (cursor : Option String) (now wireSizeBytes : Nat)
    (known : Completed state pair sent.seqId ∨ shouldIgnoreChunk state.clientSegmentReassembler
      pair.1 pair.2 sent.seqId segmentId = true) :
    handleClientEnvelope codec map state now (sent.envelope pair segmentId text cursor)
      wireSizeBytes = (none, state) := by
  have dropped : observeClientMessage codec map state now
      (sent.envelope pair segmentId text cursor) wireSizeBytes = (.dropped, state) := by
    rw [observeClientMessage]
    split
    · rfl
    · rename_i fresh
      cases known with
      | inl completed =>
        exact absurd ((sent.alreadyCompleted_iff state pair segmentId text cursor).mpr completed)
          fresh
      | inr ignored =>
        have known : alreadyAssembled state (sent.envelope pair segmentId text cursor) = true :=
          ignored
        rw [if_pos known]
  rw [handleClientEnvelope, dropped]

/-- A chunk that comes for the first time is forwarded as the whole message, if it is the last one
and the message was not interrupted. -/
theorem handle_new {state : WebsocketState} (cursor : Option String) (now : Nat)
    {wireSizeBytes : Nat} (small : wireSizeBytes ≤ remoteControlSegmentMaxBytes)
    (chunk : sent.chunks[part]? = some text) (fresh : ¬ Completed state pair sent.seqId)
    {intact : Bool} (holds : if intact then sent.Holds state.clientSegmentReassembler pair part
      else Vacant state.clientSegmentReassembler pair ∧ 0 < part) :
    ∃ after : WebsocketState,
      handleClientEnvelope codec map state now (sent.envelope pair part text cursor)
          wireSizeBytes =
        (if intact = true ∧ ¬ part + 1 < sent.chunks.length then
            some ⟨.clientMessage sent.message, pair.1, some pair.2, some sent.seqId, cursor⟩
          else none, after) ∧
      (after.lastCompletedClientChunkSeqIdByStream =
        if intact = true ∧ ¬ part + 1 < sent.chunks.length then
          insert (pair.1, some pair.2) sent.seqId state.lastCompletedClientChunkSeqIdByStream
        else state.lastCompletedClientChunkSeqIdByStream) ∧
      (∀ other, other ≠ pair.1 → get other after.clientSegmentReassembler =
        get other state.clientSegmentReassembler) ∧
      get pair.1 after.clientSegmentReassembler =
        if intact = true ∧ part + 1 < sent.chunks.length then
          some (sent.assembly pair.2 (part + 1) now)
        else none := by
  have observation_eq {observed : ClientSegmentObservation Message} {assemblies : Assemblies}
      (unknown : shouldIgnoreChunk state.clientSegmentReassembler pair.1 pair.2 sent.seqId part =
        false)
      (seen : observe codec map state.clientSegmentReassembler now
        (sent.envelope pair part text cursor) = (observed, assemblies)) :
      observeClientMessage codec map state now (sent.envelope pair part text cursor)
        wireSizeBytes = (observed, { state with clientSegmentReassembler := assemblies }) := by
    have unassembled : alreadyAssembled state (sent.envelope pair part text cursor) = false :=
      unknown
    rw [← sent.alreadyCompleted_iff state pair part text cursor] at fresh
    rw [observeClientMessage, if_neg fresh, unassembled, seen]
    simp [Nat.not_lt.mpr small]
  cases intact with
  | false =>
    obtain ⟨assemblies, seen, frame, current⟩ :=
      sent.observe_stray map now cursor chunk holds.1 holds.2
    rw [handleClientEnvelope, observation_eq (shouldIgnoreChunk_vacant holds.1 ..) seen]
    exact ⟨_, rfl, rfl, frame, current⟩
  | true =>
    obtain ⟨assemblies, seen, frame, current⟩ := sent.observe_next map now cursor chunk holds
    rw [handleClientEnvelope, observation_eq (sent.shouldIgnoreChunk_next holds) seen, observation]
    by_cases more : part + 1 < sent.chunks.length
    · simp only [more, not_true, and_false, if_false, and_true, if_true] at current ⊢
      exact ⟨_, rfl, rfl, frame, current⟩
    · simp only [more, not_false_iff, and_true, if_true, and_false, if_false] at current ⊢
      exact ⟨_, rfl, rfl, frame, current⟩

end ChunkedMessage

structure Senders (codec : ClientCodec Message) where
  pairs : List (ClientId × StreamId)
  few : pairs.length ≤ remoteControlSegmentAssemblyMaxCount
  messages : ClientId × StreamId → List (ChunkedMessage codec)
  others : ∀ pair, pair ∉ pairs → messages pair = []
  increasing : ∀ pair, (messages pair).Pairwise fun earlier later => earlier.seqId < later.seqId

/-- What a stream has sent: `done` messages and `part` chunks of the next one, which is `intact`
until another stream of the client interrupts it. `kept` lists the messages that were sent without
an interruption. -/
structure Sent where
  done : Nat := 0
  part : Nat := 0
  intact : Bool := true
  kept : List Nat := []
  deriving DecidableEq

variable (sent : Sent)

def Sent.advance (count : Nat) : Sent :=
  if sent.part + 1 < count then { sent with part := sent.part + 1 }
  else
    { done := sent.done + 1
      kept := if sent.intact then sent.kept ++ [sent.done] else sent.kept }

def Sent.interrupt : Sent :=
  { sent with intact := sent.intact && sent.part == 0 }

abbrev Progress := ClientId × StreamId → Sent

/-- A new chunk of a stream interrupts the messages that other streams of the client have begun. -/
def send (progress : Progress) (pair : ClientId × StreamId) (count : Nat) : Progress := fun other =>
  if other = pair then (progress pair).advance count
  else if other.1 = pair.1 then (progress other).interrupt
  else progress other

/-- This message or a later one of the stream was kept, or the one begun is still intact: no chunk
of an interrupted message is sent again before. -/
def Settled (index : Nat) : Prop :=
  (∃ last ∈ sent.kept, index ≤ last) ∨ 0 < sent.part ∧ sent.intact = true

def fromStream (pair : ClientId × StreamId) (envelope : ClientEnvelope Message) : Bool :=
  envelope.clientId = pair.1 ∧ envelope.streamId = some pair.2

def content (envelope : ClientEnvelope Message) : Option Nat × ClientEvent Message :=
  (envelope.seqId, envelope.event)

def ChunkedMessage.content {codec : ClientCodec Message} (sent : ChunkedMessage codec) :
    Option Nat × ClientEvent Message :=
  (some sent.seqId, .clientMessage sent.message)

structure Sent.Tidy : Prop where
  whole : sent.part = 0 → sent.intact = true
  climbing : sent.kept.Pairwise (· < ·)
  before : ∀ index ∈ sent.kept, index < sent.done

structure Tracks {codec : ClientCodec Message} (senders : Senders codec) (progress : Progress)
    (state : WebsocketState) (forwarded : List (ClientEnvelope Message)) : Prop where
  bounded : Bounded state.clientSegmentReassembler
  tidy : ∀ pair, (progress pair).Tidy
  completed : ∀ pair index sent, (senders.messages pair)[index]? = some sent →
    (ChunkedMessage.Completed state pair sent.seqId ↔ ∃ last ∈ (progress pair).kept, index ≤ last)
  held : ∀ pair, 0 < (progress pair).part → (progress pair).intact = true →
    ∃ sent seenAt, (senders.messages pair)[(progress pair).done]? = some sent ∧
      get pair.1 state.clientSegmentReassembler =
        some (sent.assembly pair.2 (progress pair).part seenAt)
  assembled : ∀ clientId assembly, get clientId state.clientSegmentReassembler = some assembly →
    0 < (progress (clientId, assembly.streamId)).part ∧
      (progress (clientId, assembly.streamId)).intact = true
  delivered : ∀ pair, (forwarded.filter (fromStream pair)).map content =
    ((progress pair).kept.filterMap ((senders.messages pair)[·]?)).map ChunkedMessage.content
  addressed : ∀ envelope ∈ forwarded, ∃ pair ∈ senders.pairs, fromStream pair envelope = true

section

variable {progress : Progress} {other : ClientId × StreamId} {count : Nat}

theorem send_self : send progress pair count pair = (progress pair).advance count := if_pos rfl

theorem send_client (differs : other ≠ pair) (client : other.1 = pair.1) :
    send progress pair count other = (progress other).interrupt := by
  rw [send, if_neg differs, if_pos client]

theorem send_other (client : other.1 ≠ pair.1) :
    send progress pair count other = progress other := by
  rw [send, if_neg fun same => client (congrArg Prod.fst same), if_neg client]

/-- Of the other streams, a new chunk only changes whether what they have begun is intact. -/
theorem send_ne (differs : other ≠ pair) :
    (send progress pair count other).done = (progress other).done ∧
      (send progress pair count other).part = (progress other).part ∧
      (send progress pair count other).kept = (progress other).kept := by
  by_cases client : other.1 = pair.1
  · rw [send_client differs client]
    exact ⟨rfl, rfl, rfl⟩
  · rw [send_other client]
    exact ⟨rfl, rfl, rfl⟩

theorem Sent.Tidy.interrupt {sent : Sent} (tidy : sent.Tidy) : sent.interrupt.Tidy :=
  ⟨fun start => by simp [Sent.interrupt, tidy.whole start, show sent.part = 0 from start],
    tidy.climbing, tidy.before⟩

theorem Sent.Tidy.advance {sent : Sent} (tidy : sent.Tidy) (count : Nat) :
    (sent.advance count).Tidy := by
  have later : ∀ index ∈ sent.kept, index < sent.done + 1 :=
    fun index member => Nat.lt_succ_of_lt (tidy.before index member)
  unfold Sent.advance
  split
  · exact ⟨nofun, tidy.climbing, tidy.before⟩
  · refine ⟨fun _ => rfl, ?_, ?_⟩ <;> dsimp only <;> split
    · refine pairwise_append.mpr ⟨tidy.climbing, pairwise_singleton _ _, ?_⟩
      simpa using tidy.before
    · exact tidy.climbing
    · simpa [or_imp, forall_and] using later
    · exact later

theorem tidy_send (tidy : ∀ pair, (progress pair).Tidy) (other : ClientId × StreamId) :
    (send progress pair count other).Tidy := by
  unfold send
  split
  · exact (tidy pair).advance count
  · split
    · exact (tidy other).interrupt
    · exact tidy other

theorem kept_advance (count : Nat) : (sent.advance count).kept =
      if sent.intact = true ∧ ¬ sent.part + 1 < count then sent.kept ++ [sent.done]
      else sent.kept := by
  unfold Sent.advance
  by_cases more : sent.part + 1 < count
  · simp [more]
  · simp [more]

end

section

variable {senders : Senders codec} {progress : Progress} {state : WebsocketState}
  {forwarded : List (ClientEnvelope Message)} {sent : ChunkedMessage codec} {after : WebsocketState}

theorem Senders.seqId_le_iff (senders : Senders codec) {i j : Nat}
    {left right : ChunkedMessage codec} (leftAt : (senders.messages pair)[i]? = some left)
    (rightAt : (senders.messages pair)[j]? = some right) : left.seqId ≤ right.seqId ↔ i ≤ j := by
  obtain ⟨leftBound, rfl⟩ := List.getElem?_eq_some_iff.mp leftAt
  obtain ⟨rightBound, rfl⟩ := List.getElem?_eq_some_iff.mp rightAt
  have increasing := pairwise_iff_getElem.mp (senders.increasing pair)
  constructor
  · intro below
    by_contra after
    have above := increasing j i rightBound leftBound (Nat.lt_of_not_le after)
    omega
  · intro below
    cases Nat.lt_or_eq_of_le below with
    | inl before => exact Nat.le_of_lt (increasing i j leftBound rightBound before)
    | inr same => subst same; exact Nat.le_refl _

theorem Senders.mem_pairs (senders : Senders codec) {index : Nat}
    (current : (senders.messages pair)[index]? = some sent) : pair ∈ senders.pairs := by
  by_contra absent
  rw [senders.others pair absent] at current
  cases current

section

variable (tracks : Tracks senders progress state forwarded)
include tracks

theorem Tracks.room
    (listed : pair ∈ senders.pairs) (missing : get pair.1 state.clientSegmentReassembler = none) :
    state.clientSegmentReassembler.length < remoteControlSegmentAssemblyMaxCount := by
  have absent := (get_eq_none pair.1 _).mp missing
  have distinct : (pair.1 :: keys state.clientSegmentReassembler).Nodup :=
    nodup_cons.mpr ⟨absent, tracks.bounded.distinct⟩
  have clients : ∀ clientId ∈ pair.1 :: keys state.clientSegmentReassembler,
      clientId ∈ senders.pairs.map Prod.fst := by
    intro clientId member
    cases mem_cons.mp member with
    | inl same => exact mem_map.mpr ⟨pair, listed, same.symm⟩
    | inr keyed =>
      obtain ⟨assembly, found⟩ := isSome_iff_exists.mp ((get_isSome clientId _).mpr keyed)
      obtain ⟨begun, intact⟩ := tracks.assembled clientId assembly found
      obtain ⟨sent, seenAt, current, _⟩ := tracks.held _ begun intact
      exact mem_map.mpr ⟨_, senders.mem_pairs current, rfl⟩
  have counted := (distinct.subperm clients).length_le
  have few := senders.few
  simp only [length_cons, KeyedList.keys, length_map] at counted
  omega

theorem Tracks.vacant (listed : pair ∈ senders.pairs)
    (idle : ¬ (0 < (progress pair).part ∧ (progress pair).intact = true)) :
    ChunkedMessage.Vacant state.clientSegmentReassembler pair := by
  cases found : get pair.1 state.clientSegmentReassembler with
  | none => exact .inr ⟨found, tracks.room listed found⟩
  | some assembly =>
    refine .inl ⟨assembly, found, fun same => idle ?_⟩
    have begun := tracks.assembled pair.1 assembly found
    rw [same] at begun
    exact begun

theorem Tracks.holds (current : (senders.messages pair)[(progress pair).done]? = some sent) :
    if (progress pair).intact then
      sent.Holds state.clientSegmentReassembler pair (progress pair).part
    else ChunkedMessage.Vacant state.clientSegmentReassembler pair ∧ 0 < (progress pair).part := by
  have listed := senders.mem_pairs current
  cases intact : (progress pair).intact with
  | false =>
    refine ⟨tracks.vacant listed fun begun => ?_, Nat.pos_of_ne_zero fun start => ?_⟩
    · rw [intact] at begun
      cases begun.2
    · have whole := (tracks.tidy pair).whole start
      rw [intact] at whole
      cases whole
  | true =>
    rcases Nat.eq_zero_or_pos (progress pair).part with start | positive
    · exact .inr ⟨start, tracks.vacant listed fun begun => Nat.ne_of_gt begun.1 start⟩
    · obtain ⟨held, seenAt, same, found⟩ := tracks.held pair positive intact
      cases current.symm.trans same
      exact .inl ⟨seenAt, found⟩

omit tracks in
theorem fromStream_self (pair : ClientId × StreamId) (event : ClientEvent Message)
    (seqId : Option Nat) (cursor : Option String) :
    fromStream pair ⟨event, pair.1, some pair.2, seqId, cursor⟩ = true := by
  simp [fromStream]

variable {other : ClientId × StreamId}

omit tracks in
theorem fromStream_other (differs : other ≠ pair)
    (event : ClientEvent Message) (seqId : Option Nat) (cursor : Option String) :
    fromStream other ⟨event, pair.1, some pair.2, seqId, cursor⟩ = false := by
  simp only [fromStream, decide_eq_false_iff_not]
  intro same
  exact differs (Prod.ext same.1.symm (some.inj same.2).symm)

theorem Tracks.completed_send (current : (senders.messages pair)[(progress pair).done]? = some sent)
    (cursors : after.lastCompletedClientChunkSeqIdByStream =
      if (progress pair).intact = true ∧ ¬ (progress pair).part + 1 < sent.chunks.length then
        insert (pair.1, some pair.2) sent.seqId state.lastCompletedClientChunkSeqIdByStream
      else state.lastCompletedClientChunkSeqIdByStream)
    {index : Nat} {message : ChunkedMessage codec}
    (listed : (senders.messages other)[index]? = some message) :
    ChunkedMessage.Completed after other message.seqId ↔
      ∃ last ∈ (send progress pair sent.chunks.length other).kept, index ≤ last := by
  have known := tracks.completed other index message listed
  rw [ChunkedMessage.Completed] at known ⊢
  by_cases same : other = pair
  · subst same
    rw [send_self, kept_advance]
    split at cursors
    · rename_i ended
      rw [if_pos ended, cursors, get_insert, if_pos rfl]
      have upto : (∃ last ∈ (progress other).kept ++ [(progress other).done], index ≤ last) ↔
          index ≤ (progress other).done := by
        constructor
        · rintro ⟨last, member, below⟩
          rcases mem_append.mp member with earlier | new
          · exact Nat.le_trans below (Nat.le_of_lt ((tracks.tidy other).before last earlier))
          · exact mem_singleton.mp new ▸ below
        · exact fun below => ⟨_, mem_append_right _ (mem_singleton_self _), below⟩
      rw [upto, ← senders.seqId_le_iff listed current]
      simp
    · rename_i unfinished
      rw [if_neg unfinished, cursors]
      exact known
  · rw [(send_ne same).2.2]
    have key : (pair.1, some pair.2) ≠ (other.1, some other.2) := by
      intro equal
      have parts := Prod.mk.inj equal
      exact same (Prod.ext parts.1.symm (some.inj parts.2).symm)
    split at cursors
    · rw [cursors, get_insert, if_neg key]
      exact known
    · rw [cursors]
      exact known

theorem Tracks.delivered_send (cursor : Option String)
    (current : (senders.messages pair)[(progress pair).done]? = some sent) :
    ((forwarded ++ (if (progress pair).intact = true ∧
        ¬ (progress pair).part + 1 < sent.chunks.length then some (⟨.clientMessage sent.message,
          pair.1, some pair.2, some sent.seqId, cursor⟩ : ClientEnvelope Message)
        else none).toList).filter (fromStream other)).map content =
      ((send progress pair sent.chunks.length other).kept.filterMap
        ((senders.messages other)[·]?)).map ChunkedMessage.content := by
  rw [filter_append, map_append, tracks.delivered other]
  by_cases same : other = pair
  · subst same
    rw [send_self, kept_advance]
    split
    · rw [filterMap_append, map_append, toList_some, filter_singleton, fromStream_self]
      simp [current, content, ChunkedMessage.content]
    · simp
  · rw [(send_ne same).2.2]
    split
    · rw [toList_some, filter_singleton, fromStream_other same]
      simp
    · simp

theorem Tracks.next {text : List Char} {wireSizeBytes : Nat} (cursor : Option String) (now : Nat)
    (current : (senders.messages pair)[(progress pair).done]? = some sent)
    (chunk : sent.chunks[(progress pair).part]? = some text)
    (small : wireSizeBytes ≤ remoteControlSegmentMaxBytes) :
    Tracks senders (send progress pair sent.chunks.length)
      (handleClientEnvelope codec map state now
        (sent.envelope pair (progress pair).part text cursor) wireSizeBytes).2
      (forwarded ++ (handleClientEnvelope codec map state now
        (sent.envelope pair (progress pair).part text cursor) wireSizeBytes).1.toList) := by
  have fresh : ¬ ChunkedMessage.Completed state pair sent.seqId := by
    rw [tracks.completed pair _ sent current]
    rintro ⟨last, member, upto⟩
    exact absurd ((tracks.tidy pair).before last member) (Nat.not_lt.mpr upto)
  obtain ⟨after, handled, cursors, frame, own⟩ :=
    sent.handle_new map cursor now small chunk fresh (tracks.holds current)
  have bounded := handleClientEnvelope_bounded codec map tracks.bounded now
    (sent.envelope pair (progress pair).part text cursor) wireSizeBytes
  rw [handled] at bounded ⊢
  refine ⟨bounded, tidy_send tracks.tidy, fun other index message =>
    tracks.completed_send current cursors, ?_, ?_, fun other => tracks.delivered_send cursor current, ?_⟩
  · intro other begun intact
    by_cases same : other = pair
    · subst same
      rw [send_self, Sent.advance] at begun intact ⊢
      split at begun
      · rename_i more
        rw [if_pos more] at intact ⊢
        rw [if_pos ⟨intact, more⟩] at own
        exact ⟨sent, now, current, own⟩
      · cases begun
    · by_cases client : other.1 = pair.1
      · rw [send_client same client, Sent.interrupt] at begun intact
        simp only [Bool.and_eq_true, beq_iff_eq] at intact
        exact absurd intact.2 (Nat.ne_of_gt begun)
      · rw [send_other client] at begun intact ⊢
        rw [frame other.1 client]
        exact tracks.held other begun intact
  · intro clientId assembly found
    by_cases same : clientId = pair.1
    · rw [same, own] at found
      split at found
      · rename_i kept
        cases found
        rw [same, ChunkedMessage.assembly, send_self, Sent.advance, if_pos kept.2]
        exact ⟨Nat.succ_pos _, kept.1⟩
      · cases found
    · rw [frame clientId same] at found
      rw [send_other same]
      exact tracks.assembled clientId assembly found
  · intro envelope member
    rcases mem_append.mp member with earlier | new
    · exact tracks.addressed envelope earlier
    · split at new
      · rw [toList_some, mem_singleton] at new
        rw [new]
        exact ⟨pair, senders.mem_pairs current, fromStream_self pair _ _ _⟩
      · cases new

theorem Tracks.again
    {text : List Char} {index : Nat} (cursor : Option String) (now wireSizeBytes : Nat)
    (current : (senders.messages pair)[index]? = some sent)
    (earlier : index < (progress pair).done ∨
      index = (progress pair).done ∧ segmentId < (progress pair).part)
    (settled : Settled (progress pair) index) :
    handleClientEnvelope codec map state now (sent.envelope pair segmentId text cursor)
      wireSizeBytes = (none, state) := by
  apply sent.handle_again map text cursor now wireSizeBytes
  rcases settled with kept | ⟨begun, intact⟩
  · exact .inl ((tracks.completed pair index sent current).mpr kept)
  · obtain ⟨held, seenAt, same, found⟩ := tracks.held pair begun intact
    refine .inr ?_
    have ordered := senders.seqId_le_iff same current
    rcases earlier with done | ⟨rfl, part⟩
    · have below : sent.seqId < held.seqId := by omega
      simp [shouldIgnoreChunk, found, ChunkedMessage.assembly, ChunkedMessage.metadata, below]
    · cases current.symm.trans same
      simp [shouldIgnoreChunk, found, ChunkedMessage.assembly, ChunkedMessage.metadata, part]

end

end

end OpenInterpreter.ReassembledOnce
