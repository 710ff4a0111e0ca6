import OpenInterpreter.ChatReassembly

/-! The order of the events of a chat stream, as a machine that knows only what a listener has
seen. -/

namespace OpenInterpreter.ChatProtocol

open ChatStream ChatPieces ChatReassembly Json List StreamState

/-- What a listener has seen: `Created`, the deltas of the items that are open, and the end. -/
structure Phase where
  created : Bool := false
  message : Option String := none
  reasoning : Option String := none
  closed : Bool := false

def Phase.next (phase : Phase) (event : Sent) : Option Phase :=
  if phase.closed then none
  else match event with
  | .error _ => some { phase with closed := true }
  | .ok (.serverModel _) => some phase
  | .ok (.created _) => if phase.created then none else some { phase with created := true }
  | .ok (.outputItemAdded (.message ..)) =>
    if phase.created ∧ phase.message = none then some { phase with message := some "" } else none
  | .ok (.outputItemAdded (.reasoning ..)) =>
    if phase.created ∧ phase.reasoning = none then some { phase with reasoning := some "" }
    else none
  | .ok (.outputItemAdded _) => none
  | .ok (.outputTextDelta delta) =>
    phase.message.map fun text => { phase with message := some (text ++ delta) }
  | .ok (.reasoningContentDelta delta) =>
    phase.reasoning.map fun text => { phase with reasoning := some (text ++ delta) }
  | .ok (.outputItemDone (.message _ _ text)) =>
    -- The text of earlier messages stays in front of that of a later one.
    if phase.message.any fun deltas => deltas.toList.isSuffixOf text.toList then
      some { phase with message := none }
    else none
  | .ok (.outputItemDone (.reasoning _ text)) =>
    if phase.reasoning = some text then some { phase with reasoning := none } else none
  | .ok (.outputItemDone _) => if phase.created then some phase else none
  | .ok (.completed ..) =>
    if phase.message = none ∧ phase.reasoning = none then some { phase with closed := true }
    else none

def phaseAfter (sent : List Sent) : Option Phase := sent.foldlM Phase.next {}

structure At (phase : Phase) (state : StreamState) : Prop where
  run : phaseAfter state.sent = some phase
  created : phase.created = state.createdSent
  closed : phase.closed = false
  message : phase.message.isSome = state.assistantItemStarted
  text : ∀ deltas ∈ phase.message, deltas.toList <:+ state.assistantText.toList
  reasoning : phase.reasoning =
    if state.reasoningItemStarted then some state.reasoningContent else none
  content : state.reasoningItemStarted = false → state.reasoningContent = ""
  calls : state.toolCalls ≠ [] → state.createdSent

def Open (state : StreamState) : Prop := ∃ phase, phase.created ∧ At phase state

def Orderly (after : StreamState → Prop) : Flow → Prop
  | .ok state => after state
  | .error state => (phaseAfter state.sent).isSome

section

variable {before after : StreamState → Prop}

theorem Orderly.bind {flow : Flow} {next : StreamState → Flow} (first : Orderly before flow)
    (rest : ∀ state, before state → Orderly after (next state)) :
    Orderly after (flow >>= next) := by
  cases flow with
  | ok state => exact rest state first
  | error _ => exact first

theorem Orderly.map {flow : Flow} {change : StreamState → StreamState}
    (first : Orderly before flow) (rest : ∀ state, before state → after (change state)) :
    Orderly after (flow.map change) := by
  cases flow with
  | ok state => exact rest state first
  | error _ => exact first

theorem Orderly.imp {flow : Flow} (first : Orderly before flow)
    (rest : ∀ state, before state → after state) : Orderly after flow := by
  cases flow with
  | ok state => exact rest state first
  | error _ => exact first

theorem orderly_foldlM {Item : Type} {work : StreamState → Item → Flow}
    (step : ∀ state item, after state → Orderly after (work state item)) (items : List Item)
    {state : StreamState} (start : after state) : Orderly after (items.foldlM work state) := by
  induction items generalizing state with
  | nil => exact start
  | cons item items ih =>
    rw [foldlM_cons]
    exact (step state item start).bind fun _ => ih

end

theorem phaseAfter_append (sent later : List Sent) :
    phaseAfter (sent ++ later) = (phaseAfter sent).bind (later.foldlM Phase.next) :=
  foldlM_append ..

variable {state : StreamState} {phase : Phase}

theorem foldlM_textDeltas (phase : Phase) {text : String} (deltas : List String)
    (closed : phase.closed = false) (streamed : phase.message = some text) :
    (deltas.map (Except.ok ∘ ResponseEvent.outputTextDelta)).foldlM Phase.next phase =
      some { phase with message := some (text ++ String.join deltas) } := by
  induction deltas generalizing phase text with
  | nil => simp [← streamed]
  | cons delta deltas ih =>
    have rest := ih { phase with message := some (text ++ delta) } closed rfl
    simpa [Phase.next, closed, streamed, String.append_assoc] using rest

theorem open_handleReasoning (text : String) (holds : Open state) :
    Open (handleReasoning state text) := by
  obtain ⟨phase, created, here⟩ := holds
  unfold handleReasoning
  split
  · exact ⟨phase, created, here⟩
  · refine ⟨{ phase with reasoning := some (state.reasoningContent ++ text) }, created, ?_⟩
    cases here
    cases started : state.reasoningItemStarted <;> constructor <;>
      simp_all [send, phaseAfter_append, Phase.next]

theorem open_handleContent (deltas : List String) (holds : Open state) :
    Open (handleContent state deltas) := by
  obtain ⟨phase, created, here⟩ := holds
  unfold handleContent
  split
  · exact ⟨phase, created, here⟩
  · rw [foldl_handleText]
    refine ⟨{ phase with message := some (phase.message.getD "" ++ String.join deltas) },
      created, ?_⟩
    cases streamed : phase.message with
    | none =>
      have texts := foldlM_textDeltas { phase with message := some "" } deltas here.closed rfl
      cases here
      constructor <;> simp_all [send, phaseAfter_append, Phase.next]
    | some text =>
      have texts := foldlM_textDeltas phase deltas here.closed streamed
      obtain ⟨front, whole⟩ := here.text text streamed
      cases here
      constructor <;> simp_all [phaseAfter_append]
      exact ⟨front, by rw [← append_assoc, whole]⟩

theorem at_finalizeReasoning (here : At phase state) :
    At { phase with reasoning := none } (finalizeReasoning state) := by
  cases phase
  cases here
  unfold finalizeReasoning
  cases started : state.reasoningItemStarted <;> constructor <;>
    simp_all [send, phaseAfter_append, Phase.next]

theorem at_finalizeAssistantMessage (here : At phase state) :
    At { phase with message := none } (finalizeAssistantMessage state) := by
  obtain ⟨created, message, reasoning, closed⟩ := phase
  cases here
  unfold finalizeAssistantMessage
  cases message <;> constructor <;> simp_all [send, phaseAfter_append, Phase.next]

section

variable {Number : Type} (parse : String → Option (Value Number)) (toolKinds : ToolKinds)

theorem orderly_finalizeNext (here : At phase state) :
    Orderly (At phase) (finalizeNext parse toolKinds state) := by
  have seen : (phaseAfter state.sent).isSome := by simp [here.run]
  unfold finalizeNext
  split
  · exact seen
  · rename_i toolCall found
    have created : state.createdSent := by
      apply here.calls
      intro empty
      simp [empty] at found
    dsimp only
    split
    · exact seen
    · refine { here with run := ?_, calls := fun _ => created }
      cases here
      unfold toolCallItem
      split <;> simp_all [send, phaseAfter_append, Phase.next]

theorem orderly_finalizeTimes (count : Nat) (here : At phase state) :
    Orderly (At phase) (finalizeTimes parse toolKinds count state) := by
  induction count generalizing state with
  | zero => exact here
  | succ count ih => exact (orderly_finalizeNext parse toolKinds here).bind fun _ => ih

theorem orderly_finalizeItems (here : At phase state) :
    Orderly (At { phase with message := none, reasoning := none })
      (finalizeItems parse toolKinds state) := by
  have closed := at_finalizeAssistantMessage (at_finalizeReasoning here)
  exact (orderly_finalizeTimes parse toolKinds _ closed).map fun _ here =>
    { here with calls := by simp }

theorem orderly_handleToolCall (delta : ToolCallDelta) (holds : Open state) :
    Orderly Open (handleToolCall parse toolKinds state delta) := by
  obtain ⟨phase, created, here⟩ := holds
  have extended : ∀ next calls, At phase next → Open { next with toolCalls := calls } :=
    fun _ _ here => ⟨phase, created, { here with calls := fun _ => here.created ▸ created }⟩
  unfold handleToolCall
  dsimp only
  split
  · exact (orderly_finalizeTimes parse toolKinds _ here).bind fun next => extended next _
  · exact extended state _ here

theorem orderly_apply (state : StreamState) (piece : Piece) (holds : Open state) :
    Orderly Open (apply parse toolKinds state piece) := by
  cases piece with
  | reasoning text => exact open_handleReasoning text holds
  | content deltas => exact open_handleContent deltas holds
  | toolCall delta => exact orderly_handleToolCall parse toolKinds delta holds
  | finish reason =>
    rw [apply, handleFinish]
    split
    · obtain ⟨phase, created, here⟩ := holds
      exact (orderly_finalizeItems parse toolKinds here).imp fun _ here =>
        ⟨{ phase with message := none, reasoning := none }, created, here⟩
    · exact holds

theorem open_handleHeader (chunk : ChatCompletionChunk Number) (here : At phase state) :
    Open (handleHeader state chunk) := by
  have frame := handleHeader_frame state chunk
  have sent : (handleHeader state chunk).createdSent ∧
      phaseAfter (handleHeader state chunk).sent = some { phase with created := true } := by
    cases phase
    cases here
    simp only [handleHeader]
    repeat' split
    all_goals simp_all [send, phaseAfter_append, Phase.next]
  refine ⟨_, rfl, sent.2, sent.1.symm, here.closed, ?_, ?_, ?_, ?_, fun _ => sent.1⟩
  · exact here.message.trans frame.2.1.1.symm
  · exact frame.2.1.2 ▸ here.text
  · rw [frame.2.2.1, frame.2.2.2]
    exact here.reasoning
  · rw [frame.2.2.1, frame.2.2.2]
    exact here.content

def Listening (state : StreamState) : Prop := ∃ phase, At phase state

theorem orderly_handleSse (state : StreamState) (event : SseEvent Number)
    (holds : Listening state) : Orderly Listening (handleSse parse toolKinds state event) := by
  obtain ⟨phase, here⟩ := holds
  cases event with
  | chunk chunk =>
    rw [handleSse, handleChunk_eq]
    exact (orderly_foldlM (orderly_apply parse toolKinds) _ (open_handleHeader chunk here)).imp
      fun _ holds => ⟨_, holds.choose_spec.2⟩
  | malformed | failed | idle =>
    simp [handleSse, Orderly, phaseAfter_append, here.run, Phase.next, here.closed]
  | done | ended =>
    have finalized := orderly_finalizeItems parse toolKinds here
    simp only [handleSse, finalizeAndComplete]
    cases outcome : finalizeItems parse toolKinds state with
    | ok next =>
      rw [outcome] at finalized
      have run : phaseAfter next.sent = _ := At.run finalized
      simp [Except.map, Orderly, send, phaseAfter_append, run, Phase.next, here.closed]
    | error next =>
      rw [outcome] at finalized
      exact finalized

/-- Whatever a server streams, and wherever the stream breaks off, the events come in order:
`Created` once and before every item; deltas only of an item that was added and is not done; a
reasoning item done with exactly its deltas, and a message with a text that ends in them;
`Completed` only when both are done; and nothing after `Completed` or an error. -/
theorem chat_events_in_order (events : List (SseEvent Number)) :
    (phaseAfter (processChatSse parse toolKinds events)).isSome := by
  have start : Listening {} := ⟨{}, rfl, rfl, rfl, rfl, by simp, rfl, fun _ => rfl, by simp⟩
  have run := orderly_foldlM (orderly_handleSse parse toolKinds) events start
  unfold processChatSse
  cases outcome : events.foldlM (handleSse parse toolKinds) {} with
  | ok state =>
    rw [outcome] at run
    obtain ⟨phase, here⟩ := run
    simp [here.run]
  | error state =>
    rw [outcome] at run
    exact run

end

end OpenInterpreter.ChatProtocol
