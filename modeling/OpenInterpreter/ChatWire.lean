import OpenInterpreter.Json
import OpenInterpreter.PromptItems
import OpenInterpreter.Text

/-! Response items as chat-completions messages: `convert_request` of
`chat-wire-compat/src/request.rs`, for the messages of the request. -/

namespace OpenInterpreter.ChatWire

open KeyedList Json PromptItems

abbrev Content := Value Empty

structure ChatFunctionCall where
  name : String
  arguments : String
  deriving DecidableEq

structure ChatToolCall where
  id : String
  type_ : String
  function : ChatFunctionCall
  deriving DecidableEq

structure ChatMessage where
  role : String
  content : Option Content
  reasoningContent : Option String
  toolCalls : Option (List ChatToolCall)
  toolCallId : Option String

inductive ApiError where
  | invalidRequest (message : String)
  deriving DecidableEq

structure JsonText where
  customArguments (input : String) : String
  localShellArguments (action : LocalShellExecAction) : String
  toolSearchArguments (execution arguments : String) : String
  contentItemsText (items : List FunctionCallOutputContentItem) : String
  toolSearchOutputText (status execution : String) (tools : List String) : String

abbrev OriginalFunctionNames := List ((Option String × String) × String)

structure MessagesRequest where
  instructions : String
  input : List ResponseItem
  originalFunctionNames : OriginalFunctionNames

def sanitizeChatToolName (name : List Char) : List Char :=
  let sanitized := name.map fun character =>
    if ('A' ≤ character ∧ character ≤ 'Z') ∨ ('a' ≤ character ∧ character ≤ 'z') ∨
        ('0' ≤ character ∧ character ≤ '9') ∨ character = '_' ∨ character = '-' then character
    else '_'
  if sanitized.isEmpty then "tool".toList else sanitized

def namespacedChatToolName (namespaceName name : String) : String :=
  let rawName :=
    if namespaceName.toList.getLast? = some '_' ∨ name.toList.head? = some '_' then
      namespaceName.toList ++ name.toList
    else namespaceName.toList ++ '_' :: name.toList
  String.ofList (sanitizeChatToolName rawName)

def chatFunctionCallName (namespaceName : Option String) (name : String)
    (originalFunctionNames : OriginalFunctionNames) : String :=
  (get (namespaceName, name) originalFunctionNames).getD
    (match namespaceName with
    | some namespaceName => namespacedChatToolName namespaceName name
    | none => name)

def chatMessageRole (role : String) : String := if role = "developer" then "user" else role

def convertImageContent : ImageReference → Content
  | .inline imageUrl =>
    .object [("type", .string "image_url"), ("image_url", .object [("url", .string imageUrl)])]
  | .file fileId =>
    .object [("type", .string "file"), ("file", .object [("file_id", .string fileId)])]

def audioContent (audioUrl : String) : Content :=
  .object [("type", .string "input_audio"), ("audio_url", .string audioUrl)]

def contentPart : ContentItem → Content
  | .inputText text | .outputText text =>
    .object [("type", .string "text"), ("text", .string text)]
  | .inputImage image => convertImageContent image
  | .inputAudio audioUrl => audioContent audioUrl

def convertMessageContent : List ContentItem → Option Content
  | [] => none
  | [.inputText text] | [.outputText text] => some (.string text)
  | [.inputImage image] => some (.array [convertImageContent image])
  | [.inputAudio audioUrl] => some (.array [audioContent audioUrl])
  | content => some (.array (content.map contentPart))

def chatContentIsEmpty : Option Content → Bool
  | none => true
  | some (.string text) => text.isEmpty
  | some (.array items) => items.isEmpty
  | some (.object fields) =>
    match get "text" fields with
    | some (.string text) => text.isEmpty
    | _ => false
  | some _ => false

def reasoningContentText (content : Option (List String)) : Option String :=
  match content with
  | none => none
  | some parts => if (String.join parts).isEmpty then none else some (String.join parts)

def toolOutputText (json : JsonText) (output : FunctionCallOutputPayload) : String :=
  match output.body with
  | .text content => content
  | .contentItems items => json.contentItemsText items

structure Conversion where
  messages : List ChatMessage
  pendingReasoningContent : Option String
  pendingAssistantContent : Option Content
  pendingToolCalls : List ChatToolCall
  pendingToolCallIds : List String
  deferredMessages : List ChatMessage

def mergePendingAssistantContent (pending converted : Option Content) : Option Content :=
  match converted with
  | none => pending
  | some converted =>
    match pending, converted with
    | none, converted => some converted
    | some (.string existing), .string next => some (.string (existing ++ next))
    | some (.array existing), .array next => some (.array (existing ++ next))
    | some existing, next => some (.array [existing, next])

variable (state : Conversion)

def flushPendingAssistant : Conversion :=
  if state.pendingAssistantContent.isNone ∧ state.pendingToolCalls.isEmpty then state
  else
    { state with
      messages := state.messages ++
        [{ role := "assistant"
           content := state.pendingAssistantContent
           reasoningContent := state.pendingReasoningContent
           toolCalls :=
             if state.pendingToolCalls.isEmpty then none else some state.pendingToolCalls
           toolCallId := none }]
      pendingAssistantContent := none
      pendingReasoningContent := none
      pendingToolCalls := [] }

def toolMessage (callId output : String) : ChatMessage :=
  ⟨"tool", some (.string output), none, none, some callId⟩

def pushToolOutput (callId output : String) : Conversion :=
  let messages := state.messages ++ [toolMessage callId output]
  let pendingToolCallIds := state.pendingToolCallIds.filter fun pending => pending ≠ callId
  if pendingToolCallIds.isEmpty then
    { state with
      messages := messages ++ state.deferredMessages
      pendingToolCallIds := pendingToolCallIds
      deferredMessages := [] }
  else { state with messages := messages, pendingToolCallIds := pendingToolCallIds }

def pushFunctionCallOutput (callId : Option String) (output : String) : Conversion :=
  match callId with
  | some callId => pushToolOutput state callId output
  | none =>
    { state with
      messages := state.messages ++ [⟨"user", some (.string output), none, none, none⟩] }

def pushToolCall (callId name arguments : String) : Conversion :=
  { state with
    pendingToolCallIds := state.pendingToolCallIds ++ [callId]
    pendingToolCalls := state.pendingToolCalls ++ [⟨callId, "function", ⟨name, arguments⟩⟩] }

/-- The loop of `convert_request`. -/
def convertItem (json : JsonText) (names : OriginalFunctionNames) (state : Conversion) :
    ResponseItem → Except ApiError Conversion
  | .message role content _ =>
    let convertedContent := convertMessageContent content
    if role = "assistant" then
      if chatContentIsEmpty convertedContent then .ok state
      else
        .ok { state with
          pendingAssistantContent :=
            mergePendingAssistantContent state.pendingAssistantContent convertedContent }
    else
      let message : ChatMessage := ⟨chatMessageRole role, convertedContent, none, none, none⟩
      if state.pendingToolCallIds.isEmpty then
        let flushed := flushPendingAssistant state
        .ok { flushed with messages := flushed.messages ++ [message] }
      else .ok { state with deferredMessages := state.deferredMessages ++ [message] }
  | .functionCall _ name namespaceName arguments callId =>
    .ok (pushToolCall state callId (chatFunctionCallName namespaceName name names) arguments)
  | .customToolCall _ callId name input =>
    .ok (pushToolCall state callId name (json.customArguments input))
  | .localShellCall id callId action =>
    match callId.or id with
    | none => .error (.invalidRequest "local_shell history item missing call id")
    | some callId =>
      .ok (pushToolCall state callId "local_shell" (json.localShellArguments action))
  | .toolSearchCall _ callId execution arguments =>
    .ok (pushToolCall state (callId.getD "tool_search") "tool_search"
      (json.toolSearchArguments execution arguments))
  | .functionCallOutput _ callId _ _ output =>
    .ok (pushFunctionCallOutput (flushPendingAssistant state) callId (toolOutputText json output))
  | .customToolCallOutput _ callId _ output =>
    .ok (pushToolOutput (flushPendingAssistant state) callId (toolOutputText json output))
  | .toolSearchOutput _ callId status execution tools =>
    .ok (pushToolOutput (flushPendingAssistant state) (callId.getD "tool_search")
      (json.toolSearchOutputText status execution tools))
  | .reasoning content =>
    match reasoningContentText content with
    | none => .ok state
    | some text =>
      .ok { state with
        pendingReasoningContent := some (state.pendingReasoningContent.getD "" ++ text) }
  | .imageGenerationCall _ | .other _ => .ok state

def startConversion (instructions : String) : Conversion where
  messages :=
    if (Text.trim instructions.toList).isEmpty then []
    else [⟨"system", some (.string instructions), none, none, none⟩]
  pendingReasoningContent := none
  pendingAssistantContent := none
  pendingToolCalls := []
  pendingToolCallIds := []
  deferredMessages := []

def finishConversion : List ChatMessage :=
  let flushed := flushPendingAssistant state
  flushed.messages ++ flushed.pendingToolCallIds.map (fun callId => toolMessage callId "aborted") ++
    flushed.deferredMessages ++
    match flushed.pendingReasoningContent with
    | none => []
    | some reasoning => [⟨"assistant", some (.string ""), some reasoning, none, none⟩]

def convertRequest (json : JsonText) (request : MessagesRequest) :
    Except ApiError (List ChatMessage) :=
  (request.input.foldlM (convertItem json request.originalFunctionNames)
    (startConversion request.instructions)).map finishConversion

end OpenInterpreter.ChatWire
