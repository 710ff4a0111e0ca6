import OpenInterpreter.ChatPieces

/-! What a chat stream is reassembled to, against what was streamed. -/

namespace OpenInterpreter.ChatReassembly

open ChatStream ChatPieces Json List StreamState

section Stream

variable {Number : Type} (parse : String → Option (Value Number)) (toolKinds : ToolKinds)

variable (state : StreamState)

def apply : Piece → Flow
  | .reasoning text => .ok (handleReasoning state text)
  | .content deltas => .ok (handleContent state deltas)
  | .toolCall delta => handleToolCall parse toolKinds state delta
  | .finish reason => handleFinish parse toolKinds state reason

theorem foldlM_toolCalls (deltas : List ToolCallDelta) :
    deltas.foldlM (handleToolCall parse toolKinds) state =
      (deltas.map Piece.toolCall).foldlM (apply parse toolKinds) state := by
  rw [foldlM_map]
  rfl

theorem handleDelta_eq (delta : Delta Number) : handleDelta parse toolKinds state delta =
      (deltaPieces delta).foldlM (apply parse toolKinds) state := by
  rw [handleDelta, deltaPieces, foldlM_toolCalls, foldlM_append]
  cases delta.reasoningContent <;> cases delta.content <;> rfl

theorem handleChoice_eq (choice : Choice Number) : handleChoice parse toolKinds state choice =
      (choicePieces choice).foldlM (apply parse toolKinds) state := by
  rw [handleChoice, choicePieces, foldlM_append]
  cases choice.delta with
  | none =>
    cases choice.finishReason with
    | none => rfl
    | some reason => exact (bind_pure (handleFinish parse toolKinds state reason)).symm
  | some delta =>
    rw [Option.map_some, Option.getD_some, ← handleDelta_eq]
    cases choice.finishReason with
    | none => rfl
    | some reason =>
      exact bind_congr fun state => (bind_pure (handleFinish parse toolKinds state reason)).symm

theorem handleChunk_eq (chunk : ChatCompletionChunk Number) :
    handleChunk parse toolKinds state chunk =
      (chunkPieces chunk).foldlM (apply parse toolKinds) (handleHeader state chunk) := by
  rw [handleChunk, chunkPieces]
  generalize handleHeader state chunk = state
  induction chunk.choices generalizing state with
  | nil => rfl
  | cons choice rest ih =>
    rw [foldlM_cons, flatMap_cons, foldlM_append, handleChoice_eq]
    exact bind_congr ih

def callItem (call : PartialToolCall) : ResponseItem :=
  toolCallItem parse toolKinds (call.name.getD "")
    (call.id.getD (defaultCallId (call.name.getD ""))) call.arguments

structure Ready (count : Nat) (state : StreamState) : Prop where
  slots : state.toolCalls.length = count
  completed : state.finalizedToolCallCount = count - 1
  named : ∀ call, state.toolCalls[count - 1]? = some call → call.name.isSome

def completeCurrent (count : Nat) (state : StreamState) : StreamState :=
  { state with
    toolCalls := state.toolCalls.set (count - 1) {}
    finalizedToolCallCount := count
    sent := state.sent ++ (state.toolCalls[count - 1]?.toList.map fun call =>
      .ok (.outputItemDone (callItem parse toolKinds call))) }

variable {count started : Nat} {delta : ToolCallDelta}

theorem finalizeToolCallsUntil_of_ready {state : StreamState} (ready : Ready count state) :
    finalizeToolCallsUntil parse toolKinds state count =
      .ok (completeCurrent parse toolKinds count state) := by
  cases count with
  | zero =>
    have empty : state.toolCalls = [] := length_eq_zero_iff.mp ready.slots
    have noneDone : state.finalizedToolCallCount = 0 := ready.completed
    cases state
    simp_all [finalizeToolCallsUntil, finalizeTimes, completeCurrent]
  | succ last =>
    have completed : state.finalizedToolCallCount = last := ready.completed
    have present : last < state.toolCalls.length := by
      rw [ready.slots]
      exact Nat.lt_succ_self last
    obtain ⟨name, named⟩ := Option.isSome_iff_exists.mp
      (ready.named state.toolCalls[last] (getElem?_eq_getElem present))
    have once : last + 1 - state.finalizedToolCallCount = 1 := by omega
    rw [finalizeToolCallsUntil]
    simp [finalizeTimes, finalizeNext, completed, present, named, completeCurrent, callItem,
      send, bind, Except.bind]

def YieldsCalls (deltas : List ToolCallDelta) (calls : List ResponseItem) : Prop :=
  ∃ started count, Ready started state ∧ StreamsCalls started count deltas ∧
    calls = completedCalls state.sent ++
      (callsFrom started state.toolCalls[started - 1]? deltas).map (callItem parse toolKinds)

/-- One of the two kinds of text, as a state holds it and as items complete it. -/
structure Kind where
  arriving : Piece → Option String
  kept : String → String
  started : StreamState → Bool
  text : StreamState → String
  completed : List Sent → List String

def messageKind : Kind :=
  ⟨arrivingText, id, assistantItemStarted, assistantText, messageTexts⟩

def reasoningKind : Kind :=
  ⟨arrivingReasoning, fun _ => "", reasoningItemStarted, reasoningContent, reasoningTexts⟩

def Kind.Yields (kind : Kind) (state : StreamState) (rest : List Piece) (texts : List String) :
    Prop :=
  texts = kind.completed state.sent ++
    itemTexts kind.arriving kind.kept (kind.started state) (kind.text state) rest

structure Yields (state : StreamState) (rest : List Piece) (calls : List ResponseItem)
    (messages reasonings : List String) : Prop where
  ordered : FinishFollowsCalls rest
  calls : YieldsCalls parse toolKinds state (toolDeltas rest) calls
  messages : messageKind.Yields state rest messages
  reasonings : reasoningKind.Yields state rest reasonings

variable {parse toolKinds} {state state' : StreamState} {rest : List Piece}
  {calls : List ResponseItem} {messages reasonings : List String}

/-! What a step leaves alone. -/

structure SameCalls (state state' : StreamState) : Prop where
  slots : state'.toolCalls = state.toolCalls
  count : state'.finalizedToolCallCount = state.finalizedToolCallCount
  completed : completedCalls state'.sent = completedCalls state.sent

structure Kind.Same (kind : Kind) (state state' : StreamState) : Prop where
  started : kind.started state' = kind.started state
  text : kind.text state' = kind.text state
  completed : kind.completed state'.sent = kind.completed state.sent

variable {deltas : List ToolCallDelta} {piece : Piece} {kind : Kind} {texts : List String}

theorem YieldsCalls.of_same (yields : YieldsCalls parse toolKinds state deltas calls)
    (same : SameCalls state state') : YieldsCalls parse toolKinds state' deltas calls := by
  obtain ⟨started, count, ready, streams, all⟩ := yields
  refine ⟨started, count, ⟨?_, ?_, ?_⟩, streams, ?_⟩
  · rw [same.slots, ready.slots]
  · rw [same.count, ready.completed]
  · rw [same.slots]
    exact ready.named
  · rw [same.slots, same.completed, all]

theorem Kind.Yields.of_same (yields : kind.Yields state rest texts) (same : kind.Same state state') :
    kind.Yields state' rest texts := by
  rw [Kind.Yields, same.started, same.text, same.completed]
  exact yields

theorem Kind.Yields.tail (yields : kind.Yields state (piece :: rest) texts)
    (silent : kind.arriving piece = none) (goesOn : piece ≠ .finish "tool_calls") :
    kind.Yields state rest texts := by
  have skipped (started : Bool) (text : String) :
      itemTexts kind.arriving kind.kept started text (piece :: rest) =
        itemTexts kind.arriving kind.kept started text rest := by
    simp [itemTexts, silent, goesOn]
  rw [Kind.Yields, skipped] at yields
  exact yields

/-! Reasoning and content. -/

theorem handleReasoning_sameCalls (state : StreamState) (text : String) :
    SameCalls state (handleReasoning state text) := by
  constructor <;> by_cases empty : text = "" <;> cases started : state.reasoningItemStarted <;>
    simp [handleReasoning, empty, started, send, completedCalls, doneItems, doneItem]

theorem handleReasoning_sameMessages (state : StreamState) (text : String) :
    messageKind.Same state (handleReasoning state text) := by
  constructor <;> by_cases empty : text = "" <;> cases started : state.reasoningItemStarted <;>
    simp [handleReasoning, empty, started, send, messageKind, messageTexts, doneItems, doneItem]

theorem yields_reasoning {text : String}
    (yields : reasoningKind.Yields state (.reasoning text :: rest) reasonings) :
    reasoningKind.Yields (handleReasoning state text) rest reasonings := by
  rw [Kind.Yields] at yields ⊢
  rw [yields]
  by_cases empty : text = ""
  · simp [reasoningKind, handleReasoning, empty, itemTexts, arrivingReasoning]
  · cases started : state.reasoningItemStarted <;>
      simp [reasoningKind, handleReasoning, empty, itemTexts, arrivingReasoning, started,
        reasoningTexts, send, doneItems, doneItem]

theorem foldl_handleText (state : StreamState) (deltas : List String) :
    deltas.foldl handleText state = { state with
        assistantText := state.assistantText ++ String.join deltas
        sent := state.sent ++ deltas.map (.ok ∘ ResponseEvent.outputTextDelta) } := by
  induction deltas generalizing state with
  | nil => simp
  | cons delta rest ih =>
    rw [foldl_cons, ih]
    simp [handleText, send, String.append_assoc]

theorem handleContent_sameCalls (state : StreamState) (deltas : List String) :
    SameCalls state (handleContent state deltas) := by
  constructor <;> by_cases empty : deltas = [] <;> cases started : state.assistantItemStarted <;>
    simp [handleContent, empty, started, foldl_handleText, send,
      completedCalls, doneItems, doneItem]

theorem handleContent_sameReasonings (state : StreamState) (deltas : List String) :
    reasoningKind.Same state (handleContent state deltas) := by
  constructor <;> by_cases empty : deltas = [] <;> cases started : state.assistantItemStarted <;>
    simp [handleContent, empty, started, foldl_handleText, send, reasoningKind, reasoningTexts,
      doneItems, doneItem]

theorem yields_content {deltas : List String}
    (yields : messageKind.Yields state (.content deltas :: rest) messages) :
    messageKind.Yields (handleContent state deltas) rest messages := by
  rw [Kind.Yields] at yields ⊢
  rw [yields]
  by_cases empty : deltas = []
  · simp [messageKind, handleContent, empty, itemTexts, arrivingText]
  · cases started : state.assistantItemStarted <;>
      simp [messageKind, handleContent, empty, itemTexts, arrivingText, started, messageTexts,
        foldl_handleText, send, doneItems, doneItem]

/-! Tool calls. -/

theorem toolCallItem_views (name callId arguments : String) :
    let item := toolCallItem parse toolKinds name callId arguments
    toolCallOf item = some item ∧ messageText item = none ∧ reasoningText item = none := by
  rw [toolCallItem]
  split <;> exact ⟨rfl, rfl, rfl⟩

variable (parse toolKinds) in
theorem completeCurrent_same (count : Nat) (state : StreamState) :
    messageKind.Same state (completeCurrent parse toolKinds count state) ∧
      reasoningKind.Same state (completeCurrent parse toolKinds count state) := by
  refine ⟨⟨rfl, rfl, ?_⟩, rfl, rfl, ?_⟩ <;> cases current : state.toolCalls[count - 1]? <;>
    simp [completeCurrent, messageKind, reasoningKind, messageTexts, reasoningTexts, doneItems,
      doneItem, callItem, toolCallItem_views]

theorem completedCalls_completeCurrent (count : Nat) (state : StreamState) :
    completedCalls (completeCurrent parse toolKinds count state).sent = completedCalls state.sent ++
        state.toolCalls[count - 1]?.toList.map (callItem parse toolKinds) := by
  cases current : state.toolCalls[count - 1]? <;>
    simp [completeCurrent, current, completedCalls, doneItems, doneItem, callItem,
      toolCallItem_views]

theorem ensure_modify_length (toolCalls : List PartialToolCall) (delta : ToolCallDelta) :
    (ensurePartialToolCall toolCalls toolCalls.length).modify toolCalls.length
      (PartialToolCall.extend · delta) = toolCalls ++ [PartialToolCall.extend {} delta] := by
  simp only [ensurePartialToolCall, Nat.add_sub_cancel_left]
  induction toolCalls with
  | nil => rfl
  | cons call rest ih =>
    rw [cons_append, length_cons, modify_succ_cons, ih, cons_append]

section

variable (ready : Ready started state)
include ready

theorem handleToolCall_of_starts (starts : Starts started delta) :
    handleToolCall parse toolKinds state delta =
      .ok { completeCurrent parse toolKinds started state with
        toolCalls := state.toolCalls.set (started - 1) {} ++
          [PartialToolCall.extend {} delta] } := by
  obtain ⟨here, ⟨id, carriesId, _⟩, name, carriesName, _⟩ := starts
  have named : delta.function.bind FunctionCallDelta.name = some name := carriesName
  have length : (state.toolCalls.set (started - 1) {}).length = started := by simp [ready.slots]
  have slot := ensure_modify_length (state.toolCalls.set (started - 1) {}) delta
  rw [length] at slot
  have finalizes := finalizeToolCallsUntil_of_ready parse toolKinds ready
  rw [← slot]
  cases started with
  | zero =>
    -- There is no call before the first one.
    have unchanged : completeCurrent parse toolKinds 0 state = state := by
      simpa [finalizeToolCallsUntil, finalizeTimes, eq_comm] using finalizes
    have empty : state.toolCalls = [] := length_eq_zero_iff.mp ready.slots
    simp [handleToolCall, here, unchanged, empty, pure, Except.pure, bind, Except.bind]
  | succ last =>
    have before : state.finalizedToolCallCount < last + 1 := by
      rw [ready.completed]
      exact Nat.lt_succ_self last
    simp [handleToolCall, here, before, carriesId, named, finalizes, completeCurrent, pure,
      Except.pure, bind, Except.bind]

theorem handleToolCall_of_continues {index : Nat}
    (below : index < started) (here : delta.index = some index) :
    handleToolCall parse toolKinds state delta = .ok { state with
        toolCalls := state.toolCalls.modify index (PartialToolCall.extend · delta) } := by
  have slots := ready.slots
  have completed := ready.completed
  have late : ¬ state.finalizedToolCallCount < index := by omega
  have present : index + 1 - state.toolCalls.length = 0 := by omega
  simp [handleToolCall, here, late, ensurePartialToolCall, present, pure, Except.pure, bind,
    Except.bind]

variable (all : calls =
    completedCalls state.sent ++
      (callsFrom started state.toolCalls[started - 1]? (delta :: deltas)).map
        (callItem parse toolKinds))
include all

theorem yieldsCalls_starts (starts : Starts started delta)
    (streams : StreamsCalls (started + 1) count deltas) :
    YieldsCalls parse toolKinds
      { completeCurrent parse toolKinds started state with
        toolCalls := state.toolCalls.set (started - 1) {} ++ [PartialToolCall.extend {} delta] }
      deltas calls := by
  have length : (state.toolCalls.set (started - 1) {}).length = started := by simp [ready.slots]
  have current : (state.toolCalls.set (started - 1) {} ++
      [PartialToolCall.extend {} delta])[started]? = some (PartialToolCall.extend {} delta) := by
    rw [getElem?_append_right (Nat.le_of_eq length), length, Nat.sub_self]
    rfl
  refine ⟨started + 1, count, ⟨?_, rfl, ?_⟩, streams, ?_⟩
  · rw [length_append, length]
    rfl
  · intro call found
    rw [Nat.add_sub_cancel, current, Option.some.injEq] at found
    obtain ⟨_, _, name, carriesName, nonempty⟩ := starts
    have named : delta.function.bind FunctionCallDelta.name = some name := carriesName
    simp [← found, PartialToolCall.extend, named, nonempty]
  · rw [all, callsFrom, if_pos starts.1, Nat.add_sub_cancel, current,
      completedCalls_completeCurrent]
    simp

theorem yieldsCalls_continues {index : Nat}
    (continues : Continues started delta) (below : index < started)
    (here : delta.index = some index) (streams : StreamsCalls started count deltas) :
    YieldsCalls parse toolKinds
      { state with toolCalls := state.toolCalls.modify index (PartialToolCall.extend · delta) }
      deltas calls := by
  have notNext : delta.index ≠ some started := by
    rw [here, ne_eq, Option.some.injEq]
    omega
  rw [callsFrom, if_neg notNext] at all
  refine ⟨started, count, ⟨by simp [ready.slots], ready.completed, ?_⟩, streams, ?_⟩ <;>
    by_cases current : index = started - 1
  · intro call found
    simp only [getElem?_modify, current, Option.map_eq_map, Option.map_eq_some_iff] at found
    obtain ⟨old, slot, extended⟩ := found
    rw [← extended, extend_of_continues continues]
    exact ready.named old slot
  · intro call found
    rw [getElem?_modify_ne _ _ current] at found
    exact ready.named call found
  · rw [if_pos (by rw [here, current])] at all
    simpa [current] using all
  · rw [if_neg (by simpa [here] using current)] at all
    simpa [getElem?_modify_ne _ _ current] using all

end

theorem yields_toolCall
    (yields : Yields parse toolKinds state (.toolCall delta :: rest) calls messages reasonings) :
    ∃ next, handleToolCall parse toolKinds state delta = .ok next ∧
      Yields parse toolKinds next rest calls messages reasonings := by
  obtain ⟨started, count, ready, streams, all⟩ := yields.calls
  have texts := yields.messages.tail rfl (by simp)
  have thoughts := yields.reasonings.tail rfl (by simp)
  cases streams with
  | inl starts =>
    have same := completeCurrent_same parse toolKinds started state
    exact ⟨_, handleToolCall_of_starts ready starts.1, yields.ordered.tail,
      yieldsCalls_starts ready all starts.1 starts.2,
      texts.of_same ⟨same.1.started, same.1.text, same.1.completed⟩,
      thoughts.of_same ⟨same.2.started, same.2.text, same.2.completed⟩⟩
  | inr continues =>
    obtain ⟨index, below, here⟩ := continues.1.1
    exact ⟨_, handleToolCall_of_continues ready below here, yields.ordered.tail,
      yieldsCalls_continues ready all continues.1 below here continues.2,
      texts.of_same ⟨rfl, rfl, rfl⟩, thoughts.of_same ⟨rfl, rfl, rfl⟩⟩

/-! The `tool_calls` finish and the end of the stream. -/

theorem finalizeReasoning_sameCalls (state : StreamState) :
    SameCalls state (finalizeReasoning state) := by
  constructor <;> cases started : state.reasoningItemStarted <;>
    simp [finalizeReasoning, started, send, completedCalls, doneItems, doneItem, toolCallOf]

theorem finalizeReasoning_sameMessages (state : StreamState) :
    messageKind.Same state (finalizeReasoning state) := by
  constructor <;> cases started : state.reasoningItemStarted <;>
    simp [finalizeReasoning, started, send, messageKind, messageTexts, doneItems, doneItem,
      messageText]

theorem finalizeAssistantMessage_sameCalls (state : StreamState) :
    SameCalls state (finalizeAssistantMessage state) := by
  constructor <;> cases started : state.assistantItemStarted <;>
    simp [finalizeAssistantMessage, started, send, completedCalls, doneItems, doneItem, toolCallOf]

theorem finalizeAssistantMessage_sameReasonings (state : StreamState) :
    reasoningKind.Same state (finalizeAssistantMessage state) := by
  constructor <;> cases started : state.assistantItemStarted <;>
    simp [finalizeAssistantMessage, started, send, reasoningKind, reasoningTexts, doneItems,
      doneItem, reasoningText]

theorem finalizeReasoning_started (state : StreamState) :
    (finalizeReasoning state).reasoningItemStarted = false := by
  cases started : state.reasoningItemStarted <;> simp [finalizeReasoning, started]

theorem finalizeAssistantMessage_started (state : StreamState) :
    (finalizeAssistantMessage state).assistantItemStarted = false := by
  cases started : state.assistantItemStarted <;> simp [finalizeAssistantMessage, started]

theorem yieldsReasonings_finalize
    (yields : reasoningKind.Yields state (.finish "tool_calls" :: rest) reasonings) :
    reasoningKind.Yields (finalizeReasoning state) rest reasonings := by
  rw [Kind.Yields] at yields ⊢
  rw [yields]
  cases started : state.reasoningItemStarted <;>
    simp [reasoningKind, finalizeReasoning, itemTexts, arrivingReasoning, started, reasoningTexts,
      send, doneItems, doneItem, reasoningText]

theorem yieldsMessages_finalize
    (yields : messageKind.Yields state (.finish "tool_calls" :: rest) messages) :
    messageKind.Yields (finalizeAssistantMessage state) rest messages := by
  rw [Kind.Yields] at yields ⊢
  rw [yields]
  cases started : state.assistantItemStarted <;>
    simp [messageKind, finalizeAssistantMessage, itemTexts, arrivingText, started, messageTexts,
      send, doneItems, doneItem, messageText]

structure Settled (state : StreamState) : Prop where
  slots : state.toolCalls = []
  message : state.assistantItemStarted = false
  reasoning : state.reasoningItemStarted = false

theorem finalizeToolCalls_of_yields (yields : YieldsCalls parse toolKinds state [] calls) :
    ∃ next, finalizeToolCalls parse toolKinds state = .ok next ∧
      YieldsCalls parse toolKinds next [] calls ∧ next.toolCalls = [] ∧
      messageKind.Same state next ∧ reasoningKind.Same state next := by
  obtain ⟨started, count, ready, streams, all⟩ := yields
  have same := completeCurrent_same parse toolKinds started state
  refine ⟨{ completeCurrent parse toolKinds started state with
    toolCalls := [], finalizedToolCallCount := 0 }, ?_, ?_, rfl,
    ⟨same.1.started, same.1.text, same.1.completed⟩,
    ⟨same.2.started, same.2.text, same.2.completed⟩⟩
  · rw [finalizeToolCalls, ready.slots, finalizeToolCallsUntil_of_ready parse toolKinds ready]
    rfl
  · refine ⟨0, 0, ⟨rfl, rfl, by simp⟩, rfl, ?_⟩
    rw [all, completedCalls_completeCurrent]
    simp [callsFrom]

theorem yields_finalizeItems
    (yields : Yields parse toolKinds state (.finish "tool_calls" :: rest) calls messages
      reasonings) :
    ∃ next, finalizeItems parse toolKinds state = .ok next ∧
      Yields parse toolKinds next rest calls messages reasonings ∧ Settled next := by
  have last : toolDeltas rest = [] := yields.ordered [] _ rest rfl
  have thoughts := yieldsReasonings_finalize yields.reasonings
  have texts := yieldsMessages_finalize
    (yields.messages.of_same (finalizeReasoning_sameMessages state))
  have inCalls : YieldsCalls parse toolKinds state [] calls := last ▸ yields.calls
  obtain ⟨next, finalized, completed, empty, sameTexts, sameThoughts⟩ :=
    finalizeToolCalls_of_yields ((inCalls.of_same (finalizeReasoning_sameCalls state)).of_same
      (finalizeAssistantMessage_sameCalls _))
  refine ⟨next, finalized, ⟨yields.ordered.tail, last.symm ▸ completed, texts.of_same sameTexts,
    (thoughts.of_same (finalizeAssistantMessage_sameReasonings _)).of_same sameThoughts⟩,
    ⟨empty, ?_, ?_⟩⟩
  · exact sameTexts.started.trans (finalizeAssistantMessage_started _)
  · exact sameThoughts.started.trans ((finalizeAssistantMessage_sameReasonings _).started.trans
      (finalizeReasoning_started state))

theorem yields_step
    (yields : Yields parse toolKinds state (piece :: rest) calls messages reasonings) :
    ∃ next, apply parse toolKinds state piece = .ok next ∧
      Yields parse toolKinds next rest calls messages reasonings := by
  cases piece with
  | reasoning text =>
    exact ⟨_, rfl, yields.ordered.tail, yields.calls.of_same (handleReasoning_sameCalls state text),
      (yields.messages.tail rfl (by simp)).of_same (handleReasoning_sameMessages state text),
      yields_reasoning yields.reasonings⟩
  | content deltas =>
    exact ⟨_, rfl, yields.ordered.tail, yields.calls.of_same (handleContent_sameCalls state deltas),
      yields_content yields.messages,
      (yields.reasonings.tail rfl (by simp)).of_same (handleContent_sameReasonings state deltas)⟩
  | toolCall delta => exact yields_toolCall yields
  | finish reason =>
    by_cases forCalls : reason = "tool_calls"
    · subst forCalls
      obtain ⟨next, finalized, later, _⟩ := yields_finalizeItems yields
      exact ⟨next, finalized, later⟩
    · have goesOn : Piece.finish reason ≠ .finish "tool_calls" := by simpa using forCalls
      exact ⟨state, by simp [apply, handleFinish, forCalls], yields.ordered.tail, yields.calls,
        yields.messages.tail rfl goesOn, yields.reasonings.tail rfl goesOn⟩

theorem yields_pieces {pieces : List Piece}
    (yields : Yields parse toolKinds state (pieces ++ rest) calls messages reasonings) :
    ∃ next, pieces.foldlM (apply parse toolKinds) state = .ok next ∧
      Yields parse toolKinds next rest calls messages reasonings := by
  induction pieces generalizing state with
  | nil => exact ⟨state, rfl, yields⟩
  | cons piece later ih =>
    obtain ⟨middle, applied, continued⟩ := yields_step yields
    obtain ⟨next, run, done⟩ := ih continued
    refine ⟨next, ?_, done⟩
    rw [foldlM_cons, applied]
    exact run

theorem doneItems_handleHeader (state : StreamState) (chunk : ChatCompletionChunk Number) :
    doneItems (handleHeader state chunk).sent = doneItems state.sent := by
  simp only [handleHeader]
  repeat' split
  all_goals simp [send, doneItems, doneItem]

theorem handleHeader_frame (state : StreamState) (chunk : ChatCompletionChunk Number) :
    let next := handleHeader state chunk
    (next.toolCalls = state.toolCalls ∧
      next.finalizedToolCallCount = state.finalizedToolCallCount) ∧
    (next.assistantItemStarted = state.assistantItemStarted ∧
      next.assistantText = state.assistantText) ∧
    next.reasoningItemStarted = state.reasoningItemStarted ∧
      next.reasoningContent = state.reasoningContent := by
  simp only [handleHeader]
  repeat' split
  all_goals exact ⟨⟨rfl, rfl⟩, ⟨rfl, rfl⟩, rfl, rfl⟩

theorem yields_header (chunk : ChatCompletionChunk Number)
    (yields : Yields parse toolKinds state rest calls messages reasonings) :
    Yields parse toolKinds (handleHeader state chunk) rest calls messages reasonings := by
  have completed := doneItems_handleHeader state chunk
  obtain ⟨sameCalls, texts, thoughts⟩ := handleHeader_frame state chunk
  refine ⟨yields.ordered, yields.calls.of_same ⟨sameCalls.1, sameCalls.2, ?_⟩,
    yields.messages.of_same ⟨texts.1, texts.2, ?_⟩,
    yields.reasonings.of_same ⟨thoughts.1, thoughts.2, ?_⟩⟩
  · rw [completedCalls, completed, completedCalls]
  · exact congrArg (filterMap messageText) completed
  · exact congrArg (filterMap reasoningText) completed

variable (chunks : List (ChatCompletionChunk Number))

theorem yields_chunks
    (yields : Yields parse toolKinds state (chunks.flatMap chunkPieces) calls messages reasonings) :
    ∃ next, (chunks.map SseEvent.chunk).foldlM (handleSse parse toolKinds) state = .ok next ∧
      Yields parse toolKinds next [] calls messages reasonings := by
  induction chunks generalizing state with
  | nil => exact ⟨state, rfl, yields⟩
  | cons chunk later ih =>
    obtain ⟨middle, applied, continued⟩ := yields_pieces
      (yields_header chunk yields)
    obtain ⟨next, run, done⟩ := ih continued
    refine ⟨next, ?_, done⟩
    rw [map_cons, foldlM_cons, handleSse, handleChunk_eq, applied]
    exact run

theorem finalizeAndComplete_of_yields
    (yields : Yields parse toolKinds state [] calls messages reasonings) :
    ∃ final, finalizeAndComplete parse toolKinds state = .ok final ∧
      completedCalls final.sent = calls ∧ messageTexts final.sent = messages ∧
      reasoningTexts final.sent = reasonings := by
  -- The end of the stream finalizes as a `tool_calls` finish with nothing after it does.
  have finishing : Yields parse toolKinds state [.finish "tool_calls"] calls messages reasonings := by
    refine ⟨?_, yields.calls, ?_, ?_⟩
    · intro before reason after parts
      cases before <;> simp_all [toolDeltas]
    · rw [Kind.Yields, yields.messages]
      cases started : state.assistantItemStarted <;>
        simp [messageKind, started, itemTexts, arrivingText]
    · rw [Kind.Yields, yields.reasonings]
      cases started : state.reasoningItemStarted <;>
        simp [reasoningKind, started, itemTexts, arrivingReasoning]
  obtain ⟨next, finalized, done, settled⟩ := yields_finalizeItems finishing
  refine ⟨next.send (.completed next.responseId (next.usage.map tokenUsage)), ?_, ?_, ?_, ?_⟩
  · rw [finalizeAndComplete, finalized]
    rfl
  · obtain ⟨started, count, ready, streams, all⟩ := done.calls
    rw [all, settled.slots]
    simp [callsFrom, toolDeltas, send, completedCalls, doneItems, doneItem]
  · rw [done.messages]
    simp [messageKind, settled.message, itemTexts, send, messageTexts, doneItems, doneItem]
  · rw [done.reasonings]
    simp [reasoningKind, settled.reasoning, itemTexts, send, reasoningTexts, doneItems, doneItem]

theorem processChatSse_completes
    (streams : StreamsCalls 0 count (toolDeltas (chunks.flatMap chunkPieces)))
    (ordered : FinishFollowsCalls (chunks.flatMap chunkPieces)) :
    let sent := processChatSse parse toolKinds (chunks.map .chunk ++ [.done])
    let pieces := chunks.flatMap chunkPieces
    completedCalls sent =
        (List.range count).map (callItem parse toolKinds ∘ earlyCall (toolDeltas pieces)) ∧
      messageTexts sent = itemTexts arrivingText id false "" pieces ∧
      reasoningTexts sent = itemTexts arrivingReasoning (fun _ => "") false "" pieces := by
  have initially : Yields parse toolKinds {} (chunks.flatMap chunkPieces)
      ((List.range count).map
        (callItem parse toolKinds ∘ earlyCall (toolDeltas (chunks.flatMap chunkPieces))))
      (itemTexts arrivingText id false "" (chunks.flatMap chunkPieces))
      (itemTexts arrivingReasoning (fun _ => "") false "" (chunks.flatMap chunkPieces)) := by
    refine ⟨ordered, ⟨0, count, ⟨rfl, rfl, by simp⟩, streams, ?_⟩, rfl, rfl⟩
    rw [← map_map, ← callsFrom_none streams]
    rfl
  obtain ⟨last, run, arrived⟩ := yields_chunks chunks initially
  obtain ⟨final, completed, results⟩ := finalizeAndComplete_of_yields arrived
  have sent : processChatSse parse toolKinds (chunks.map .chunk ++ [.done]) = final.sent := by
    rw [processChatSse, foldlM_append, run]
    simp [handleSse, completed, bind, Except.bind]
  rw [sent]
  exact results

variable (parse toolKinds)

def deliveredInput (name arguments : String) : String :=
  match KeyedList.get name toolKinds with
  | some .custom => customInput parse arguments
  | _ => arguments

def streamedCalls (deltas : List ToolCallDelta) (count : Nat) : List ResponseItem :=
  (List.range count).map fun index =>
    toolCallItem parse toolKinds (callName deltas index) (callId deltas index)
      (fragments deltas index)

theorem toolCallItem_eq_iff (name callId arguments others : String) :
    toolCallItem parse toolKinds name callId arguments =
        toolCallItem parse toolKinds name callId others ↔
      deliveredInput parse toolKinds name arguments =
        deliveredInput parse toolKinds name others := by
  cases kind : KeyedList.get name toolKinds with
  | none => simp [toolCallItem, deliveredInput, kind]
  | some toolKind => cases toolKind <;> simp [toolCallItem, deliveredInput, kind]

/-- Reasoning always comes out as it was streamed. Calls do when no fragment that matters arrives
after the next call has started, and text does when none is repeated after a `tool_calls` finish. -/
theorem reassembled_iff (chunks : List (ChatCompletionChunk Number)) {count : Nat}
    (streams : StreamsCalls 0 count (toolDeltas (chunks.flatMap chunkPieces)))
    (ordered : FinishFollowsCalls (chunks.flatMap chunkPieces)) :
    let sent := processChatSse parse toolKinds (chunks.map .chunk ++ [.done])
    let pieces := chunks.flatMap chunkPieces
    let deltas := toolDeltas pieces
    (completedCalls sent = streamedCalls parse toolKinds deltas count ∧
        String.join (messageTexts sent) = streamed arrivingText pieces ∧
        String.join (reasoningTexts sent) = streamed arrivingReasoning pieces) ↔
      (∀ index < count, deliveredInput parse toolKinds (callName deltas index)
              (fragments (deltasBeforeNext deltas index) index) =
            deliveredInput parse toolKinds (callName deltas index) (fragments deltas index)) ∧
        FreshText arrivingText "" pieces := by
  intro sent pieces deltas
  obtain ⟨completed, texts, thoughts⟩ := processChatSse_completes chunks streams ordered
  have reasonings : String.join (reasoningTexts sent) = streamed arrivingReasoning pieces := by
    rw [thoughts, join_itemTexts_taken false "" pieces (fun _ => rfl), String.empty_append]
  have messages : String.join (messageTexts sent) = streamed arrivingText pieces ↔
      FreshText arrivingText "" pieces := by
    have unfinished : ∀ reason, arrivingText (.finish reason) = none := fun _ => rfl
    have kept := join_itemTexts_kept unfinished false "" pieces
    rw [texts]
    simpa using kept
  have calls : completedCalls sent = streamedCalls parse toolKinds deltas count ↔ ∀ index < count,
        deliveredInput parse toolKinds (callName deltas index)
            (fragments (deltasBeforeNext deltas index) index) =
          deliveredInput parse toolKinds (callName deltas index) (fragments deltas index) := by
    rw [completed, streamedCalls, map_inj_left]
    simp only [mem_range]
    exact forall₂_congr fun index _ => toolCallItem_eq_iff parse toolKinds _ _ _ _
  rw [calls, messages]
  simp [reasonings]

end Stream

def plainParse (_ : String) : Option (Value Empty) := none

def fragment (index : Nat) (arguments : String) : ToolCallDelta :=
  ⟨some index, none, some ⟨none, some arguments⟩⟩

def firstOf (index : Nat) (id name arguments : String) : ToolCallDelta :=
  ⟨some index, some id, some ⟨some name, some arguments⟩⟩

def callsChunk (deltas : List ToolCallDelta) : ChatCompletionChunk Empty :=
  ⟨none, none, [⟨some ⟨none, none, some deltas⟩, none⟩], none⟩

def textChunk (text : String) (finish : Option String) : ChatCompletionChunk Empty :=
  ⟨none, none, [⟨some ⟨some (.string text), none, none⟩, finish⟩], none⟩

theorem streamed_text_and_calls_kept :
    let chunks := [textChunk "Looking" none, callsChunk [firstOf 0 "a" "read" "\x7b"],
      callsChunk [fragment 0 "\x7d", firstOf 1 "b" "list" "[]"], textChunk "" (some "tool_calls")]
    let sent := processChatSse plainParse [] (chunks.map .chunk ++ [.done])
    completedCalls sent =
        [.functionCall "read" none "\x7b\x7d" "a", .functionCall "list" none "[]" "b"] ∧
      String.join (messageTexts sent) = "Looking" := by
  intro chunks sent
  have streams : StreamsCalls 0 2 (toolDeltas (chunks.flatMap chunkPieces)) := by
    refine .inl ⟨⟨rfl, ⟨"a", rfl, by decide⟩, "read", rfl, by decide⟩, .inr ⟨⟨⟨0, ?_, rfl⟩, rfl, rfl⟩,
      .inl ⟨⟨rfl, ⟨"b", rfl, by decide⟩, "list", rfl, by decide⟩, rfl⟩⟩⟩
    decide
  have ordered : FinishFollowsCalls (chunks.flatMap chunkPieces) := by
    simp [chunks, chunkPieces, choicePieces, deltaPieces, textChunk, callsChunk,
      finishFollowsCalls_cons, finishFollowsCalls_nil, toolDeltas]
  have fresh : FreshText arrivingText "" (chunks.flatMap chunkPieces) := by
    simp [chunks, chunkPieces, choicePieces, deltaPieces, textChunk, callsChunk,
      freshText_cons, freshText_nil, Arrives]
  have kept := (reassembled_iff plainParse [] chunks streams ordered).mpr ⟨by decide, fresh⟩
  exact ⟨kept.1.trans (by decide), kept.2.1.trans (by decide)⟩

/-- Call 0 goes on after call 1 has started; text goes on after a `tool_calls` finish. -/
theorem late_fragment_lost_and_text_repeated :
    let late := [callsChunk [firstOf 0 "a" "read" "1"], callsChunk [firstOf 1 "b" "list" "2"],
      callsChunk [fragment 0 "3"]]
    let resumed := [textChunk "x" (some "tool_calls"), textChunk "y" none]
    completedCalls (processChatSse plainParse [] (late.map .chunk ++ [.done])) =
        [.functionCall "read" none "1" "a", .functionCall "list" none "2" "b"] ∧
      streamedCalls plainParse [] (toolDeltas (late.flatMap chunkPieces)) 2 =
        [.functionCall "read" none "13" "a", .functionCall "list" none "2" "b"] ∧
      messageTexts (processChatSse plainParse [] (resumed.map .chunk ++ [.done])) = ["x", "xy"] ∧
      streamed arrivingText (resumed.flatMap chunkPieces) = "xy" := by
  decide

end OpenInterpreter.ChatReassembly
