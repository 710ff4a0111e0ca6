import OpenInterpreter.Json
import OpenInterpreter.KeyedList

/-! A chat-completions stream as response events: `chat-wire-compat/src/stream.rs`. The receiver is
there, so every send succeeds; what was sent is part of the state. -/

namespace OpenInterpreter.ChatStream

open KeyedList Json

structure FunctionCallDelta where
  name : Option String
  arguments : Option String
  deriving DecidableEq

structure ToolCallDelta where
  index : Option Nat
  id : Option String
  function : Option FunctionCallDelta
  deriving DecidableEq

structure Delta (Number : Type) where
  content : Option (Value Number)
  reasoningContent : Option String
  toolCalls : Option (List ToolCallDelta)

structure Choice (Number : Type) where
  delta : Option (Delta Number)
  finishReason : Option String

structure ChatUsage where
  promptTokens : Option Int64
  completionTokens : Option Int64
  totalTokens : Option Int64
  deriving DecidableEq

structure ChatCompletionChunk (Number : Type) where
  id : Option String
  model : Option String
  choices : List (Choice Number)
  usage : Option ChatUsage

/-- What the event source yields: an event that parses or does not, its `[DONE]`, its end, or a
failure. -/
inductive SseEvent (Number : Type) where
  | chunk (chunk : ChatCompletionChunk Number)
  | malformed (error : String)
  | done
  | ended
  | failed (error : String)
  | idle

inductive ToolOutputKind where
  | function
  | namespacedFunction (name namespaceName : String)
  | custom
  deriving DecidableEq

abbrev ToolKinds := List (String × ToolOutputKind)

inductive ResponseItem where
  | reasoning (id text : String)
  | message (id role text : String)
  | functionCall (name : String) (namespaceName : Option String) (arguments callId : String)
  | customToolCall (callId name input : String)
  deriving DecidableEq

structure TokenUsage where
  inputTokens : Int64
  outputTokens : Int64
  totalTokens : Int64
  deriving DecidableEq

inductive ResponseEvent where
  | serverModel (model : String)
  | created (responseId : String)
  | outputItemAdded (item : ResponseItem)
  | reasoningContentDelta (delta : String)
  | outputTextDelta (delta : String)
  | outputItemDone (item : ResponseItem)
  | completed (responseId : String) (tokenUsage : Option TokenUsage)
  deriving DecidableEq

abbrev Sent := Except String ResponseEvent

structure PartialToolCall where
  id : Option String := none
  name : Option String := none
  arguments : String := ""
  deriving DecidableEq

structure StreamState where
  responseId : String := "chatcmpl-compat"
  messageItemId : String := "chat-message-1"
  reasoningItemId : String := "chat-reasoning-1"
  createdSent : Bool := false
  assistantItemStarted : Bool := false
  assistantText : String := ""
  reasoningItemStarted : Bool := false
  reasoningContent : String := ""
  toolCalls : List PartialToolCall := []
  finalizedToolCallCount : Nat := 0
  usage : Option ChatUsage := none
  serverModel : Option String := none
  sent : List Sent := []

abbrev Flow := Except StreamState StreamState

variable (state : StreamState)

def StreamState.send (event : ResponseEvent) : StreamState :=
  { state with sent := state.sent ++ [.ok event] }

variable {Number : Type}

def textField (name : String) : Value Number → Option String
  | .object fields =>
    match get name fields with
    | some (.string text) => some text
    | _ => none
  | _ => none

def extractTextDeltas : Value Number → List String
  | .string text => [text]
  | .array parts => parts.filterMap (textField "text")
  | .object fields => (textField "text" (.object fields)).toList
  | .bool _ | .null | .number _ => []

def finalizeAssistantMessage : StreamState :=
  if !state.assistantItemStarted then state
  else
    { state.send (.outputItemDone (.message state.messageItemId "assistant" state.assistantText))
      with assistantItemStarted := false }

def finalizeReasoning : StreamState :=
  if !state.reasoningItemStarted then state
  else
    { state.send (.outputItemDone (.reasoning state.reasoningItemId state.reasoningContent))
      with reasoningContent := "", reasoningItemStarted := false }

section

variable (parse : String → Option (Value Number)) (toolKinds : ToolKinds)
  (state : StreamState)

def customInput (arguments : String) : String :=
  match parse arguments with
  | some value => (textField "input" value).getD arguments
  | none => arguments

def toolCallItem (name callId arguments : String) : ResponseItem :=
  match get name toolKinds with
  | some .function | none => .functionCall name none arguments callId
  | some (.namespacedFunction outputName namespaceName) =>
    .functionCall outputName (some namespaceName) arguments callId
  | some .custom => .customToolCall callId name (customInput parse arguments)

def defaultCallId (name : String) : String :=
  "call_" ++ String.ofList (name.toList.map fun char => if char = '.' then '_' else char)

/-- One turn of the loop of `finalize_tool_calls_until`. -/
def finalizeNext : Flow :=
  match state.toolCalls[state.finalizedToolCallCount]? with
  | none => .error state
  | some toolCall =>
    let state := { state with
      toolCalls := state.toolCalls.set state.finalizedToolCallCount {} }
    match toolCall.name with
    | none => .error state
    | some name =>
      let item := toolCallItem parse toolKinds name (toolCall.id.getD (defaultCallId name))
        toolCall.arguments
      .ok { state.send (.outputItemDone item)
        with finalizedToolCallCount := state.finalizedToolCallCount + 1 }

def finalizeTimes : Nat → StreamState → Flow
  | 0, state => .ok state
  | count + 1, state => finalizeNext parse toolKinds state >>= finalizeTimes count

def finalizeToolCallsUntil (endIndex : Nat) : Flow :=
  finalizeTimes parse toolKinds (endIndex - state.finalizedToolCallCount) state

def finalizeToolCalls : Flow :=
  (finalizeToolCallsUntil parse toolKinds state state.toolCalls.length).map fun state =>
    { state with toolCalls := [], finalizedToolCallCount := 0 }

def tokenUsage (usage : ChatUsage) : TokenUsage where
  inputTokens := usage.promptTokens.getD 0
  outputTokens := usage.completionTokens.getD 0
  totalTokens := usage.totalTokens.getD
    (usage.promptTokens.getD 0 + usage.completionTokens.getD 0)

def finalizeItems : Flow :=
  finalizeToolCalls parse toolKinds (finalizeAssistantMessage (finalizeReasoning state))

def finalizeAndComplete : Flow :=
  (finalizeItems parse toolKinds state).map fun state =>
    state.send (.completed state.responseId (state.usage.map tokenUsage))

def handleReasoning (text : String) : StreamState :=
  if text = "" then state
  else
    let state :=
      if state.reasoningItemStarted then state
      else { state.send (.outputItemAdded (.reasoning state.reasoningItemId ""))
        with reasoningItemStarted := true }
    { state.send (.reasoningContentDelta text)
      with reasoningContent := state.reasoningContent ++ text }

def handleText (text : String) : StreamState :=
  { state with assistantText := state.assistantText ++ text }.send (.outputTextDelta text)

def handleContent (deltas : List String) : StreamState :=
  if deltas = [] then state
  else
    deltas.foldl handleText
      (if state.assistantItemStarted then state
      else { state.send (.outputItemAdded (.message state.messageItemId "assistant" ""))
        with assistantItemStarted := true })

def ensurePartialToolCall (toolCalls : List PartialToolCall) (index : Nat) : List PartialToolCall :=
  toolCalls ++ List.replicate (index + 1 - toolCalls.length) ({} : PartialToolCall)

def PartialToolCall.extend (toolCall : PartialToolCall) (delta : ToolCallDelta) :
    PartialToolCall where
  id := (delta.id.filter (· ≠ "")).or toolCall.id
  name := ((delta.function.bind FunctionCallDelta.name).filter (· ≠ "")).or toolCall.name
  arguments := toolCall.arguments ++ (delta.function.bind FunctionCallDelta.arguments).getD ""

def handleToolCall (delta : ToolCallDelta) : Flow := do
  let index := delta.index.getD (state.toolCalls.length - 1)
  let startsNewToolCall := state.finalizedToolCallCount < index ∧ delta.id.isSome ∧
    (delta.function.bind FunctionCallDelta.name).isSome
  let state ←
    if startsNewToolCall then finalizeToolCallsUntil parse toolKinds state index else .ok state
  return { state with
    toolCalls := (ensurePartialToolCall state.toolCalls index).modify index
      (PartialToolCall.extend · delta) }

def handleFinish (finishReason : String) : Flow :=
  if finishReason = "tool_calls" then finalizeItems parse toolKinds state else .ok state

def handleDelta (delta : Delta Number) : Flow :=
  let state := match delta.reasoningContent with
    | some text => handleReasoning state text
    | none => state
  let state := match delta.content with
    | some content => handleContent state (extractTextDeltas content)
    | none => state
  (delta.toolCalls.getD []).foldlM (handleToolCall parse toolKinds) state

def handleChoice (choice : Choice Number) : Flow := do
  let state ← match choice.delta with
    | some delta => handleDelta parse toolKinds state delta
    | none => .ok state
  match choice.finishReason with
    | some finishReason => handleFinish parse toolKinds state finishReason
    | none => .ok state

/-- The id, the model, the usage and `Created` of a chunk. -/
def handleHeader (chunk : ChatCompletionChunk Number) : StreamState :=
  let state := { state with responseId := chunk.id.getD state.responseId }
  let state := match chunk.model with
    | some model =>
      if state.serverModel = some model then state
      else { state with serverModel := some model }.send (.serverModel model)
    | none => state
  let state :=
    if state.createdSent then state
    else { state with createdSent := true }.send (.created state.responseId)
  { state with usage := chunk.usage.or state.usage }

def handleChunk (chunk : ChatCompletionChunk Number) : Flow :=
  chunk.choices.foldlM (handleChoice parse toolKinds) (handleHeader state chunk)

/-- One turn of the loop of `process_chat_sse`. -/
def handleSse : SseEvent Number → Flow
  | .chunk chunk => handleChunk parse toolKinds state chunk
  | .malformed error =>
    .error { state with
      sent := state.sent ++ [.error ("failed to parse chat completions chunk: " ++ error)] }
  | .done | .ended =>
    match finalizeAndComplete parse toolKinds state with
    | .ok state | .error state => .error state
  | .failed error => .error { state with sent := state.sent ++ [.error error] }
  | .idle => .error { state with
      sent := state.sent ++ [.error "idle timeout waiting for chat completions SSE"] }

def processChatSse (events : List (SseEvent Number)) : List Sent :=
  match events.foldlM (handleSse parse toolKinds) {} with
  | .ok state | .error state => state.sent

end

end OpenInterpreter.ChatStream
