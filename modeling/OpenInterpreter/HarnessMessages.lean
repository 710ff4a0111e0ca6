import OpenInterpreter.HeldText
import OpenInterpreter.PromptItems
import OpenInterpreter.Text

/-! The chat messages that the opencode and pi harnesses build from a history: `build_messages` of
`harness/opencode.rs` and of `harness/pi.rs`, which differ in a few places only. -/

namespace OpenInterpreter.HarnessMessages

open PromptItems HeldText List Option

inductive MessageContent where
  | text (content : String)
  | parts (texts : List String)
  | null
  deriving DecidableEq

structure ToolCall where
  id : String
  name : String
  arguments : String
  deriving DecidableEq

structure HarnessMessage where
  role : String
  content : MessageContent
  reasoningContent : Option String := none
  toolCalls : Option (List ToolCall) := none
  toolCallId : Option String := none
  deriving DecidableEq

/-- The JSON texts that a harness writes: `compact_json_arguments`, the objects of a custom and of
a shell call, and `quote_prompt_for_opencode`. -/
structure HarnessJson where
  compactArguments (toolName arguments : String) : String
  customInput (input : String) : String
  shellCommand (command : List String) (timeout : Option Nat) : String
  quotePrompt (content : String) : String

structure Profile where
  json : HarnessJson
  callContent : Option String → MessageContent
  reasoningField : Option String → Option String
  sendsHeld (content reasoning : Option String) : Bool
  userContent : String → MessageContent
  shellArguments : LocalShellExecAction → String
  keepsReasoning : Bool
  developerAsUser : Bool

structure Building where
  messages : List HarnessMessage
  pendingToolCalls : List ToolCall
  awaitingToolCallIds : List String
  pendingAssistantContent : Option String
  pendingReasoningContent : Option String
  deriving DecidableEq

def messageContent (content : List ContentItem) : String :=
  String.join (content.map fun item =>
    match item with
    | .inputText text | .outputText text => text
    | .inputImage _ | .inputAudio _ => "")

def isBlankText (text : String) : Bool := text.toList.all Text.isWhitespace

/-- `FunctionCallOutputBody::to_text`. -/
def outputBodyText : FunctionCallOutputBody → Option String
  | .text content => some content
  | .contentItems items =>
    let segments := items.filterMap fun item =>
      match item with
      | .inputText text => if isBlankText text then none else some text
      | _ => none
    if segments = [] then none else some (String.intercalate "\n" segments)

def harnessNoTruncatePrefix : String := "<open-interpreter-harness-no-truncate>\n"

def toolOutputContent (output : FunctionCallOutputPayload) : String :=
  let text := ((outputBodyText output.body).getD "").toList
  String.ofList ((Text.stripPrefix harnessNoTruncatePrefix.toList text).getD text)

section

variable (profile : Profile)

def flushPendingToolCalls (state : Building) : Building :=
  if state.pendingToolCalls = [] then state
  else
    { state with
      messages := state.messages ++
        [{ role := "assistant"
           content := profile.callContent state.pendingAssistantContent
           reasoningContent := profile.reasoningField state.pendingReasoningContent
           toolCalls := some state.pendingToolCalls }]
      awaitingToolCallIds := state.awaitingToolCallIds ++ state.pendingToolCalls.map ToolCall.id
      pendingToolCalls := []
      pendingAssistantContent := none
      pendingReasoningContent := none }

def flushPendingAssistantMessage (state : Building) : Building :=
  { state with
    messages := state.messages ++
      if profile.sendsHeld state.pendingAssistantContent state.pendingReasoningContent then
        [{ role := "assistant"
           content := .text (state.pendingAssistantContent.getD "")
           reasoningContent := profile.reasoningField state.pendingReasoningContent }]
      else []
    pendingAssistantContent := none
    pendingReasoningContent := none }

def discardUnansweredToolCalls (state : Building) : Building :=
  { state with
    pendingToolCalls := []
    awaitingToolCallIds := []
    pendingAssistantContent := none
    pendingReasoningContent := none }

def pushToolCall (state : Building) (call : ToolCall) : Building :=
  { state with pendingToolCalls := state.pendingToolCalls ++ [call] }

def pushToolOutput (state : Building) (callId content : String) : Building :=
  let flushed := flushPendingToolCalls profile state
  if callId ∈ flushed.awaitingToolCallIds then
    { flushed with
      messages := flushed.messages ++
        [{ role := "tool", content := .text content, toolCallId := some callId }]
      awaitingToolCallIds := flushed.awaitingToolCallIds.filter (· ≠ callId) }
  else flushed

def pushUserMessage (state : Building) (content : MessageContent) : Building :=
  { state with messages := state.messages ++ [{ role := "user", content := content }] }

variable (contextual : List ContentItem → Bool)

def pushMessage (state : Building) (role : String) (content : List ContentItem) : Building :=
  let text := messageContent content
  if role = "assistant" then
    if text = "" then state else { state with pendingAssistantContent := some text }
  else if role = "user" then
    if contextual content then state
    else
      pushUserMessage
        (flushPendingAssistantMessage profile (discardUnansweredToolCalls state))
        (profile.userContent text)
  else if role = "developer" ∧ profile.developerAsUser then
    let flushed := flushPendingAssistantMessage profile (discardUnansweredToolCalls state)
    if text = "" then flushed else pushUserMessage flushed (.text text)
  else state

/-- The loop of `build_messages`. -/
def buildItem (state : Building) : ResponseItem → Except String Building
  | .message role content _ => .ok (pushMessage profile contextual state role content)
  | .functionCall _ name _ arguments callId =>
    .ok (pushToolCall state ⟨callId, name, profile.json.compactArguments name arguments⟩)
  | .localShellCall id callId action =>
    match callId.or id with
    | none => .error "local_shell history item missing call id"
    | some callId => .ok (pushToolCall state ⟨callId, "bash", profile.shellArguments action⟩)
  | .functionCallOutput _ callId _ _ output =>
    match callId with
    | none => .ok state
    | some callId => .ok (pushToolOutput profile state callId (toolOutputContent output))
  | .customToolCallOutput _ callId _ output =>
    .ok (pushToolOutput profile state callId (toolOutputContent output))
  | .customToolCall _ callId name input =>
    .ok (pushToolCall state
      ⟨callId, name, profile.json.compactArguments name (profile.json.customInput input)⟩)
  | .reasoning content =>
    let text := String.join (content.getD [])
    .ok (if profile.keepsReasoning ∧ text ≠ "" then
      { state with pendingReasoningContent := some text } else state)
  | .toolSearchCall _ _ _ _ | .toolSearchOutput _ _ _ _ _ | .imageGenerationCall _ | .other _ =>
    .ok state

def startBuilding : Building := ⟨[], [], [], none, none⟩

def buildMessages (items : List ResponseItem) : Except String (List HarnessMessage) := do
  let built ← items.foldlM (buildItem profile contextual) startBuilding
  return (flushPendingAssistantMessage profile (flushPendingToolCalls profile built)).messages

end

variable (json : HarnessJson)

def opencode (searchAgent : Bool) : Profile where
  json := json
  callContent pending := .text (pending.getD "")
  reasoningField _ := none
  sendsHeld content _ := content.any (· ≠ "")
  userContent content := .text (if searchAgent then content else json.quotePrompt content)
  shellArguments action := json.shellCommand action.command action.timeoutMs
  keepsReasoning := false
  developerAsUser := true

def pi : Profile where
  json := json
  callContent pending := pending.elim .null .text
  reasoningField pending := some (pending.getD "")
  sendsHeld content reasoning := content.isSome || reasoning.isSome
  userContent content := .parts [content]
  shellArguments action :=
    json.compactArguments "bash" (json.shellCommand action.command (action.timeoutMs.map (· / 1000)))
  keepsReasoning := true
  developerAsUser := false

namespace Opencode

def buildMessages (json : HarnessJson) (contextual : List ContentItem → Bool)
    (items : List ResponseItem) (searchAgent : Bool) : Except String (List HarnessMessage) :=
  HarnessMessages.buildMessages (opencode json searchAgent) contextual items

end Opencode

namespace Pi

def buildMessages (json : HarnessJson) (contextual : List ContentItem → Bool)
    (items : List ResponseItem) : Except String (List HarnessMessage) :=
  HarnessMessages.buildMessages (pi json) contextual items

end Pi

def shownText : MessageContent → String
  | .text content => content
  | .parts texts => String.join texts
  | .null => ""

def saying (message : HarnessMessage) : Option (Speaker × String) :=
  if message.role = "user" then some (.user, shownText message.content)
  else if message.role = "assistant" ∧ shownText message.content ≠ "" then
    some (.assistant, shownText message.content)
  else none

def conversation (messages : List HarnessMessage) : List (Speaker × String) :=
  messages.filterMap saying

variable (contextual : List ContentItem → Bool)

def event : ResponseItem → Option (Event String)
  | .message role content _ =>
    if role = "user" then
      if contextual content then none else some (.ask (messageContent content))
    else if role = "assistant" then
      if messageContent content = "" then none else some (.say (messageContent content))
    else none
  | .functionCall _ _ _ _ _ => some .call
  | .functionCallOutput _ (some _) _ _ _ => some .output
  | _ => none

/-- Non-contextual user messages, assistant messages with a text, function calls and outputs. -/
def PlainHistory (items : List ResponseItem) : Prop :=
  ∀ item ∈ items, (event contextual item).isSome

def events (items : List ResponseItem) : List (Event String) :=
  items.filterMap (event contextual)

def texts (items : List ResponseItem) : List (Speaker × String) :=
  spoken (events contextual items)

structure Profile.Verbatim (profile : Profile) : Prop where
  user : ∀ text, shownText (profile.userContent text) = text
  calls : ∀ pending, shownText (profile.callContent pending) = pending.getD ""
  nothing : profile.sendsHeld none none = false
  held : ∀ text, text ≠ "" → profile.sendsHeld (some text) none = true

theorem opencode_verbatim : (opencode json true).Verbatim where
  user _ := rfl
  calls _ := rfl
  nothing := rfl
  held _ nonempty := decide_eq_true nonempty

theorem pi_verbatim : (pi json).Verbatim where
  user text := by simp [pi, shownText]
  calls pending := by cases pending <;> rfl
  nothing := rfl
  held _ _ := rfl

structure Holds (state : Building) (slot : Slot String) : Prop where
  shown : conversation state.messages = slot.shown
  held : state.pendingAssistantContent = slot.held
  nonempty : ∀ text, slot.held = some text → text ≠ ""
  calls : state.pendingToolCalls = [] ↔ slot.calls = false
  reasoning : state.pendingReasoningContent = none

theorem conversation_snoc (messages : List HarnessMessage) (message : HarnessMessage) :
    conversation (messages ++ [message]) = conversation messages ++ (saying message).toList := by
  cases said : saying message <;> simp [said, conversation]

theorem saying_assistant {message : HarnessMessage} {held : Option String}
    (role : message.role = "assistant") (content : shownText message.content = held.getD "")
    (nonempty : ∀ text, held = some text → text ≠ "") :
    saying message = held.map (Speaker.assistant, ·) := by
  rw [saying, if_neg (by rw [role]; decide), content]
  cases held with
  | none => exact if_neg fun both => both.2 rfl
  | some text => exact if_pos ⟨role, nonempty text rfl⟩

variable {contextual : List ContentItem → Bool}

section

variable {profile : Profile}
  {state : Building} {slot : Slot String} (verbatim : profile.Verbatim) (holds : Holds state slot)
include verbatim holds

theorem flushPendingToolCalls_holds :
    Holds (flushPendingToolCalls profile state) (step slot .output) := by
  unfold flushPendingToolCalls
  split
  case isTrue idle =>
      rw [step_output_idle (holds.calls.mp idle)]
      exact holds
  case isFalse busy =>
      have calls : slot.calls = true := by simpa [holds.calls] using busy
      rw [step_output_calls calls]
      constructor
      case shown =>
        rw [conversation_snoc, holds.shown,
          saying_assistant rfl (by rw [verbatim.calls, holds.held]) holds.nonempty]
        exact congrArg (slot.shown ++ ·) toList_map
      case held => rfl
      case nonempty => exact nofun
      case calls => exact iff_of_true rfl rfl
      case reasoning => rfl

theorem pushToolOutput_holds (callId content : String) :
    Holds (pushToolOutput profile state callId content) (step slot .output) := by
  have flushed := flushPendingToolCalls_holds verbatim holds
  rw [pushToolOutput]
  split
  case isTrue =>
    refine { flushed with shown := ?_ }
    rw [conversation_snoc, flushed.shown]
    exact append_nil _
  case isFalse => exact flushed

theorem flushPendingAssistantMessage_shown :
    conversation (flushPendingAssistantMessage profile state).messages = slot.release.shown := by
  unfold flushPendingAssistantMessage
  rw [holds.reasoning, holds.held]
  cases held : slot.held with
  | none =>
    rw [if_neg (by rw [verbatim.nothing]; decide), append_nil, holds.shown, Slot.release, held]
    exact (append_nil _).symm
  | some text =>
    rw [if_pos (verbatim.held text (holds.nonempty text held)), conversation_snoc, holds.shown,
      saying_assistant rfl rfl fun other same =>
        holds.nonempty other (held.trans same), Slot.release, held]
    rfl

theorem pushMessage_holds
    {role : String} {content : List ContentItem} {metadata : Option MessageMetadata}
    {told : Event String} (read : event contextual (.message role content metadata) = some told) :
    Holds (pushMessage profile contextual state role content) (step slot told) := by
  rw [event] at read
  split at read
  case isTrue user =>
    split at read
    case isTrue => cases read
    case isFalse asked =>
      cases read
      have emptied : Holds (discardUnansweredToolCalls state) ⟨slot.shown, none, false⟩ :=
        ⟨holds.shown, rfl, nofun, iff_of_true rfl rfl, rfl⟩
      have shown := flushPendingAssistantMessage_shown verbatim emptied
      rw [pushMessage, if_neg (by rw [user]; decide), if_pos user, if_neg asked]
      refine ⟨?_, rfl, nofun, iff_of_true rfl rfl, rfl⟩
      rw [pushUserMessage, conversation_snoc, shown, saying, verbatim.user]
      exact congrArg (· ++ _) (append_nil _)
  case isFalse =>
    split at read
    case isTrue assistant =>
      split at read
      case isTrue => cases read
      case isFalse nonempty =>
        cases read
        rw [pushMessage, if_pos assistant, if_neg nonempty]
        exact { holds with held := rfl, nonempty := fun _ same => some.inj same ▸ nonempty }
    case isFalse => cases read

theorem buildItem_holds
    {item : ResponseItem} {told : Event String} (read : event contextual item = some told) :
    ∃ next, buildItem profile contextual state item = .ok next ∧ Holds next (step slot told) := by
  cases item with
  | message role content metadata =>
    exact ⟨_, rfl, pushMessage_holds verbatim holds read⟩
  | functionCall id name space arguments callId =>
    cases read
    refine ⟨_, rfl, { holds with calls := ?_ }⟩
    exact iff_of_false (append_ne_nil_of_right_ne_nil _ (cons_ne_nil _ _)) nofun
  | functionCallOutput id callId name space output =>
    cases callId with
    | none => cases read
    | some callId =>
      cases read
      exact ⟨_, rfl, pushToolOutput_holds verbatim holds _ _⟩
  | _ => cases read

end

variable {profile : Profile}

section

variable (verbatim : profile.Verbatim)
include verbatim

theorem buildItems_holds (items : List ResponseItem) (plain : PlainHistory contextual items)
    {state : Building} {slot : Slot String} (holds : Holds state slot) :
    ∃ built, items.foldlM (buildItem profile contextual) state = .ok built ∧
      Holds built ((events contextual items).foldl step slot) := by
  induction items generalizing state slot with
  | nil => exact ⟨state, rfl, holds⟩
  | cons item items ih =>
    obtain ⟨told, read⟩ := isSome_iff_exists.mp (plain item mem_cons_self)
    obtain ⟨next, stepped, held⟩ := buildItem_holds verbatim holds read
    obtain ⟨built, rest, final⟩ := ih (fun later mem => plain later (.tail _ mem)) held
    refine ⟨built, ?_, ?_⟩
    · rw [foldlM_cons, stepped]
      exact rest
    · rw [events, filterMap_cons_some read]
      exact final

variable {items : List ResponseItem}

theorem buildMessages_delivered (plain : PlainHistory contextual items) :
    ∃ messages, buildMessages profile contextual items = .ok messages ∧
      conversation messages = delivered (events contextual items) start := by
  have empty : Holds startBuilding start := ⟨rfl, rfl, nofun, iff_of_true rfl rfl, rfl⟩
  obtain ⟨built, folded, holds⟩ := buildItems_holds verbatim items plain empty
  refine ⟨_, by rw [buildMessages, folded]; rfl, ?_⟩
  have flushed := flushPendingToolCalls_holds verbatim holds
  rw [flushPendingAssistantMessage_shown verbatim flushed, delivered]
  -- a last output releases nothing that the end does not release
  generalize (events contextual items).foldl step start = slot
  cases calls : slot.calls with
  | true =>
    rw [step_output_calls calls]
    exact append_nil _
  | false => rw [step_output_idle calls]

theorem buildMessages_keeps_iff (plain : PlainHistory contextual items) :
    ∃ messages, buildMessages profile contextual items = .ok messages ∧
      (conversation messages = texts contextual items ↔
        AllHeard false (events contextual items)) := by
  obtain ⟨messages, built, shown⟩ := buildMessages_delivered verbatim plain
  refine ⟨messages, built, ?_⟩
  have whole := delivered_eq_iff (events contextual items) start
  rw [shown]
  exact whole.trans (and_iff_right nofun)

end

/-- Both harnesses keep every text, once and in order, exactly when each assistant text is the last
of the history or is followed, before the next text, by an output that finds calls to send. -/
theorem conversation_kept_iff (json : HarnessJson) (contextual : List ContentItem → Bool)
    (items : List ResponseItem) (plain : PlainHistory contextual items) :
    (∃ messages, Opencode.buildMessages json contextual items true = .ok messages ∧
      (conversation messages = texts contextual items ↔ AllHeard false (events contextual items))) ∧
    ∃ messages, Pi.buildMessages json contextual items = .ok messages ∧
      (conversation messages = texts contextual items ↔ AllHeard false (events contextual items)) :=
  ⟨buildMessages_keeps_iff (opencode_verbatim json) plain,
    buildMessages_keeps_iff (pi_verbatim json) plain⟩

def plainJson : HarnessJson :=
  ⟨fun _ arguments => arguments, id, fun command _ => String.join command, id⟩

def userSays (text : String) : ResponseItem := .message "user" [.inputText text] none

def assistantSays (text : String) : ResponseItem := .message "assistant" [.outputText text] none

def answeredTurn : List ResponseItem :=
  [userSays "list", assistantSays "looking", .functionCall none "ls" none "x" "c1",
    .functionCallOutput none (some "c1") none none ⟨.text "a", none⟩, assistantSays "done"]

theorem answered_turn_kept :
    PlainHistory (fun _ => false) answeredTurn ∧
    AllHeard false (events (fun _ => false) answeredTurn) ∧
    (∃ messages, Opencode.buildMessages plainJson (fun _ => false) answeredTurn true = .ok messages ∧
      conversation messages = texts (fun _ => false) answeredTurn) ∧
    ∃ messages, Pi.buildMessages plainJson (fun _ => false) answeredTurn = .ok messages ∧
      conversation messages = texts (fun _ => false) answeredTurn := by
  have plain : PlainHistory (fun _ => false) answeredTurn := by
    unfold PlainHistory
    decide +kernel
  have read : events (fun _ => false) answeredTurn =
      [.ask "list", .say "looking", .call, .output, .say "done"] := by decide +kernel
  have all : AllHeard false (events (fun _ => false) answeredTurn) := by
    exact ⟨rfl, rfl, trivial⟩
  obtain ⟨⟨opened, openedBuilt, openedKept⟩, messages, built, kept⟩ :=
    conversation_kept_iff plainJson _ answeredTurn plain
  exact ⟨plain, all, ⟨opened, openedBuilt, openedKept.mpr all⟩, messages, built, kept.mpr all⟩

theorem greeting_forgotten :
    let history := [userSays "hi", assistantSays "hello", userSays "bye"]
    PlainHistory (fun _ => false) history ∧
    texts (fun _ => false) history = [(.user, "hi"), (.assistant, "hello"), (.user, "bye")] ∧
    Opencode.buildMessages plainJson (fun _ => false) history true =
      .ok [{ role := "user", content := .text "hi" }, { role := "user", content := .text "bye" }] ∧
    Pi.buildMessages plainJson (fun _ => false) history =
      .ok [{ role := "user", content := .parts ["hi"] },
        { role := "user", content := .parts ["bye"] }] := by
  unfold PlainHistory
  decide +kernel

end OpenInterpreter.HarnessMessages
