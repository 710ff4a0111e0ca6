import OpenInterpreter.ChatWire

/-! Tool results in chat-completions messages stand right after the calls that they answer, unless
the input interrupts a group of calls that is partly answered. -/

namespace OpenInterpreter.ChatAdjacency

open Json PromptItems ChatWire List Option

/-! ### What the messages should be -/

/-- The ids that wait for a result after a message. A result answers one of them, and any other
message comes only when there are none. -/
def answerStep (pending : List String) (message : ChatMessage) : Option (List String) :=
  if message.role = "tool" then
    match message.toolCallId with
    | some callId => if callId ∈ pending then some (pending.erase callId) else none
    | none => none
  else if pending = [] then some ((message.toolCalls.getD []).map ChatToolCall.id)
  else none

def Adjacent (messages : List ChatMessage) : Prop := messages.foldlM answerStep [] = some []

instance (messages : List ChatMessage) : Decidable (Adjacent messages) :=
  inferInstanceAs (Decidable (_ = _))

def isPlain (message : ChatMessage) : Bool := message.role ≠ "tool" ∧ message.role ≠ "assistant"

/-! ### What the input says -/

def callId : ResponseItem → Option String
  | .functionCall _ _ _ _ callId | .customToolCall _ callId _ _ => some callId
  | .localShellCall id callId _ => callId.or id
  | .toolSearchCall _ callId _ _ => some (callId.getD "tool_search")
  | _ => none

def outputId : ResponseItem → Option String
  | .functionCallOutput _ callId _ _ _ => callId
  | .customToolCallOutput _ callId _ _ => some callId
  | .toolSearchOutput _ callId _ _ _ => some (callId.getD "tool_search")
  | _ => none

def isUntracked : ResponseItem → Bool
  | .functionCallOutput _ none _ _ _ => true
  | _ => false

def speaks : ResponseItem → Bool
  | .message role content _ =>
    role = "assistant" ∧ chatContentIsEmpty (convertMessageContent content) = false
  | _ => false

def plainMessage (json : JsonText) : ResponseItem → Option ChatMessage
  | .message role content _ =>
    if role = "assistant" then none
    else some ⟨chatMessageRole role, convertMessageContent content, none, none, none⟩
  | .functionCallOutput _ none _ _ output =>
    some ⟨"user", some (.string (toolOutputText json output)), none, none, none⟩
  | _ => none

/-- No output without a call id comes while a call is unanswered, and no call or assistant message
comes while a call made before the last output is. The ids in `waiting` are those of calls before
the last output, those in `asked` of calls after it. -/
def uninterrupted (waiting asked : List String) : List ResponseItem → Bool
  | [] => true
  | item :: rest =>
    match callId item, outputId item with
    | some id, _ => waiting = [] ∧ uninterrupted waiting (asked ++ [id]) rest
    | none, some id => uninterrupted ((waiting ++ asked).filter fun other => other ≠ id) [] rest
    | none, none =>
      if isUntracked item then waiting = [] ∧ asked = [] ∧ uninterrupted waiting asked rest
      else if speaks item then waiting = [] ∧ uninterrupted waiting asked rest
      else uninterrupted waiting asked rest

/-- Each id is called once and answered once, later; `pending` are ids called before. No message is
in the role of a tool. -/
structure Paired (pending : List String) (input : List ResponseItem) : Prop where
  once : (pending ++ input.filterMap callId).Nodup
  answered : (input.filterMap outputId).Perm (pending ++ input.filterMap callId)
  later : ∀ before item after id, input = before ++ item :: after → outputId item = some id →
    id ∈ pending ++ before.filterMap callId
  roles : ∀ role content metadata, .message role content metadata ∈ input → role ≠ "tool"

theorem filter_ne {ids : List String} (distinct : ids.Nodup) (id : String) :
    ids.filter (fun other => other ≠ id) = ids.erase id := by
  rw [distinct.erase_eq_filter]
  apply filter_congr
  intro other _
  rw [Bool.eq_iff_iff]
  simp

variable {rest : List ResponseItem} {pending : List String} {item : ResponseItem}

namespace Paired

section

variable (paired : Paired pending (item :: rest))
include paired

theorem tail_later :
    ∀ before next after id, rest = before ++ next :: after → outputId next = some id →
      id ∈ pending ++ (item :: before).filterMap callId := by
  intro before next after id split output
  exact paired.later (item :: before) next after id (by rw [split, cons_append]) output

theorem tail_roles :
    ∀ role content metadata, .message role content metadata ∈ rest → role ≠ "tool" :=
  fun role content metadata member => paired.roles role content metadata (.tail _ member)

theorem call {id : String} (called : callId item = some id)
    (silent : outputId item = none) : Paired (pending ++ [id]) rest where
  once := by
    have once := paired.once
    rwa [filterMap_cons_some called, append_cons] at once
  answered := by
    have answered := paired.answered
    rwa [filterMap_cons_some called, filterMap_cons_none silent, append_cons] at answered
  later before next after other split output := by
    have member := paired.tail_later before next after other split output
    rwa [filterMap_cons_some called, append_cons] at member
  roles := paired.tail_roles

theorem output {id : String} (silent : callId item = none) (answers : outputId item = some id) :
    id ∈ pending ∧ Paired (pending.filter fun other => other ≠ id) rest := by
  have asked : id ∈ pending := by
    have member := paired.later [] item rest id rfl answers
    simpa using member
  have distinct : pending.Nodup := paired.once.of_append_left
  have removed := filter_ne distinct id
  have outputs := paired.answered
  rw [filterMap_cons_some answers, filterMap_cons_none silent] at outputs
  have fresh : id ∉ rest.filterMap outputId := by
    have once := paired.once
    rw [filterMap_cons_none silent] at once
    exact (nodup_cons.mp (outputs.nodup_iff.mpr once)).1
  refine ⟨asked, ?_, ?_, ?_, paired.tail_roles⟩
  · have once := paired.once
    rw [filterMap_cons_none silent] at once
    exact once.sublist (filter_sublist.append_right _)
  · rw [removed]
    apply Perm.cons_inv (a := id)
    exact outputs.trans ((perm_cons_erase asked).append_right _)
  · intro before next after other split output
    have member := paired.tail_later before next after other split output
    rw [filterMap_cons_none silent] at member
    have differs : other ≠ id := by
      intro same
      apply fresh
      rw [← same, split]
      exact mem_filterMap.mpr ⟨next, by simp, output⟩
    cases mem_append.mp member with
    | inl called =>
      exact mem_append_left _ (mem_filter.mpr ⟨called, by simpa using differs⟩)
    | inr called => exact mem_append_right _ called

theorem other (uncalled : callId item = none)
    (silent : outputId item = none) : Paired pending rest where
  once := by
    have once := paired.once
    rwa [filterMap_cons_none uncalled] at once
  answered := by
    have answered := paired.answered
    rwa [filterMap_cons_none uncalled, filterMap_cons_none silent] at answered
  later before next after id split output := by
    have member := paired.tail_later before next after id split output
    rwa [filterMap_cons_none uncalled] at member
  roles := paired.tail_roles

end

theorem nil_pending (paired : Paired pending []) : pending = [] := by
  have answered := paired.answered
  simpa using answered

end Paired

/-! ### What an item does to the conversion -/

inductive Turn where
  | call (id name arguments : String)
  | output (id text : String)
  | untracked (text : String)
  | plain (message : ChatMessage)
  | speech (content : Option Content)
  | thought (text : Option String)

def Turn.apply (state : Conversion) : Turn → Conversion
  | .call id name arguments => pushToolCall state id name arguments
  | .output id text => pushToolOutput (flushPendingAssistant state) id text
  | .untracked text => pushFunctionCallOutput (flushPendingAssistant state) none text
  | .plain message =>
    if state.pendingToolCallIds.isEmpty then
      { flushPendingAssistant state with
        messages := (flushPendingAssistant state).messages ++ [message] }
    else { state with deferredMessages := state.deferredMessages ++ [message] }
  | .speech content =>
    { state with
      pendingAssistantContent :=
        mergePendingAssistantContent state.pendingAssistantContent content }
  | .thought none => state
  | .thought (some text) =>
    { state with pendingReasoningContent := some (state.pendingReasoningContent.getD "" ++ text) }

def Turn.Fits (json : JsonText) (item : ResponseItem) : Turn → Prop
  | .call id _ _ => callId item = some id ∧ outputId item = none ∧ plainMessage json item = none
  | .output id _ => callId item = none ∧ outputId item = some id ∧ plainMessage json item = none
  | .untracked text =>
    callId item = none ∧ outputId item = none ∧ isUntracked item = true ∧
      plainMessage json item = some ⟨"user", some (.string text), none, none, none⟩
  | .plain message =>
    ∃ role content metadata, item = .message role content metadata ∧ role ≠ "assistant" ∧
      message = ⟨chatMessageRole role, convertMessageContent content, none, none, none⟩
  | .speech content =>
    callId item = none ∧ outputId item = none ∧ isUntracked item = false ∧ speaks item = true ∧
      plainMessage json item = none ∧ content.isSome
  | .thought _ =>
    callId item = none ∧ outputId item = none ∧ isUntracked item = false ∧ speaks item = false ∧
      plainMessage json item = none

variable {json : JsonText} {names : OriginalFunctionNames} {state final : Conversion}
    {input : List ResponseItem} {message : ChatMessage}

theorem turn_of_message {converted : Conversion} {role : String} {content : List ContentItem}
    {metadata : Option MessageMetadata}
    (ok : convertItem json names state (.message role content metadata) = .ok converted) :
    ∃ turn : Turn, turn.Fits json (.message role content metadata) ∧
      turn.apply state = converted := by
  rw [convertItem] at ok
  by_cases assistant : role = "assistant"
  · rw [if_pos assistant] at ok
    by_cases empty : chatContentIsEmpty (convertMessageContent content) = true
    · rw [if_pos empty] at ok
      cases ok
      exact ⟨.thought none, by simp [Turn.Fits, callId, outputId, isUntracked, speaks,
        plainMessage, assistant, empty], rfl⟩
    · rw [if_neg empty] at ok
      cases ok
      have present : (convertMessageContent content).isSome := by
        cases converted : convertMessageContent content with
        | none => simp [converted, chatContentIsEmpty] at empty
        | some value => rfl
      exact ⟨.speech _, by simp [Turn.Fits, callId, outputId, isUntracked, speaks,
        plainMessage, assistant, empty, present], rfl⟩
  · rw [if_neg assistant] at ok
    refine ⟨.plain _, ⟨role, content, metadata, rfl, assistant, rfl⟩, ?_⟩
    rw [Turn.apply]
    split at ok
    · rename_i idle
      cases ok
      rw [if_pos idle]
    · rename_i busy
      cases ok
      rw [if_neg busy]

theorem turn_of_convertItem {converted : Conversion}
    (ok : convertItem json names state item = .ok converted) :
    ∃ turn : Turn, turn.Fits json item ∧ turn.apply state = converted := by
  cases item with
  | message role content metadata => exact turn_of_message ok
  | functionCall id name namespaceName arguments called =>
    cases ok
    exact ⟨.call called _ arguments, ⟨rfl, rfl, rfl⟩, rfl⟩
  | customToolCall id called name input =>
    cases ok
    exact ⟨.call called name _, ⟨rfl, rfl, rfl⟩, rfl⟩
  | localShellCall id called action =>
    rw [convertItem] at ok
    cases found : called.or id with
    | none => simp [found] at ok
    | some effective =>
      simp only [found] at ok
      cases ok
      exact ⟨.call effective "local_shell" _, ⟨found, rfl, rfl⟩, rfl⟩
  | toolSearchCall id called execution arguments =>
    cases ok
    exact ⟨.call _ "tool_search" _, ⟨rfl, rfl, rfl⟩, rfl⟩
  | functionCallOutput id called name namespaceName output =>
    cases ok
    cases called with
    | some called => exact ⟨.output called _, ⟨rfl, rfl, rfl⟩, rfl⟩
    | none => exact ⟨.untracked _, ⟨rfl, rfl, rfl, rfl⟩, rfl⟩
  | customToolCallOutput id called name output =>
    cases ok
    exact ⟨.output called _, ⟨rfl, rfl, rfl⟩, rfl⟩
  | toolSearchOutput id called status execution tools =>
    cases ok
    exact ⟨.output _ _, ⟨rfl, rfl, rfl⟩, rfl⟩
  | reasoning content =>
    refine ⟨.thought (reasoningContentText content), ⟨rfl, rfl, rfl, rfl, rfl⟩, ?_⟩
    rw [convertItem] at ok
    cases found : reasoningContentText content with
    | none | some =>
      rw [found] at ok
      cases ok
      rfl
  | imageGenerationCall result =>
    cases ok
    exact ⟨.thought none, ⟨rfl, rfl, rfl, rfl, rfl⟩, rfl⟩
  | other content =>
    cases ok
    exact ⟨.thought none, ⟨rfl, rfl, rfl, rfl, rfl⟩, rfl⟩

theorem exists_first_turn
    (converted : (item :: rest).foldlM (convertItem json names) state = .ok final) :
    ∃ turn : Turn, turn.Fits json item ∧
      rest.foldlM (convertItem json names) (turn.apply state) = .ok final := by
  rw [foldlM_cons] at converted
  cases ok : convertItem json names state item with
  | error error =>
    rw [ok] at converted
    cases converted
  | ok next =>
    rw [ok] at converted
    obtain ⟨turn, fits, rfl⟩ := turn_of_convertItem ok
    exact ⟨turn, fits, converted⟩

/-! ### Messages are only added -/

theorem flush_messages (state : Conversion) :
    ∃ more, (flushPendingAssistant state).messages = state.messages ++ more := by
  rw [flushPendingAssistant]
  split
  · exact ⟨[], (append_nil _).symm⟩
  · exact ⟨_, rfl⟩

theorem pushToolOutput_messages (state : Conversion) (id text : String) :
    ∃ more, (pushToolOutput state id text).messages = state.messages ++ more := by
  rw [pushToolOutput]
  split
  · exact ⟨_, append_assoc _ _ _⟩
  · exact ⟨_, rfl⟩

theorem pushToolOutput_calls (state : Conversion) (id text : String) :
    (pushToolOutput state id text).pendingToolCalls = state.pendingToolCalls := by
  rw [pushToolOutput]
  split <;> rfl

theorem pushToolOutput_content (state : Conversion) (id text : String) :
    (pushToolOutput state id text).pendingAssistantContent = state.pendingAssistantContent := by
  rw [pushToolOutput]
  split <;> rfl

theorem apply_messages (turn : Turn) (state : Conversion) :
    ∃ more, (turn.apply state).messages = state.messages ++ more := by
  obtain ⟨flushed, flushEq⟩ := flush_messages state
  have pushed : ∀ message, (flushPendingAssistant state).messages ++ [message] =
      state.messages ++ (flushed ++ [message]) := by
    intro message
    rw [flushEq, append_assoc]
  cases turn with
  | call id name arguments => exact ⟨[], (append_nil _).symm⟩
  | output id text =>
    obtain ⟨more, outputEq⟩ := pushToolOutput_messages (flushPendingAssistant state) id text
    rw [flushEq, append_assoc] at outputEq
    exact ⟨_, outputEq⟩
  | untracked text => exact ⟨_, pushed _⟩
  | plain message =>
    rw [Turn.apply]
    split
    · exact ⟨_, pushed message⟩
    · exact ⟨[], (append_nil _).symm⟩
  | speech content => exact ⟨[], (append_nil _).symm⟩
  | thought text =>
    cases text with
    | none | some => exact ⟨[], (append_nil _).symm⟩

section

variable (converted : input.foldlM (convertItem json names) state = .ok final)
include converted

theorem convert_messages :
    ∃ more, finishConversion final = state.messages ++ more := by
  induction input generalizing state with
  | nil =>
    cases converted
    obtain ⟨flushed, flushEq⟩ := flush_messages final
    simp only [finishConversion, flushEq, append_assoc]
    exact ⟨_, rfl⟩
  | cons item rest ih =>
    obtain ⟨turn, _, converted⟩ := exists_first_turn converted
    obtain ⟨first, firstEq⟩ := apply_messages turn state
    obtain ⟨more, moreEq⟩ := ih converted
    rw [firstEq, append_assoc] at moreEq
    exact ⟨_, moreEq⟩

theorem not_adjacent_of_lost (lost : state.messages.foldlM answerStep [] = none) :
    ¬ Adjacent (finishConversion final) := by
  obtain ⟨more, moreEq⟩ := convert_messages converted
  rw [Adjacent, moreEq, foldlM_append, lost]
  simp

end

/-! ### The conversion against the input -/

/-- What the messages wait for is what the input left unanswered, and the messages of others are
all there or deferred. -/
structure Sync (state : Conversion) (waiting asked : List String) (shown : List ChatMessage) :
    Prop where
  answered : state.messages.foldlM answerStep [] = some waiting
  calls : state.pendingToolCalls.map ChatToolCall.id = asked
  ids : state.pendingToolCallIds = waiting ++ asked
  deferred : ∀ message ∈ state.deferredMessages,
    isPlain message = true ∧ message.toolCalls = none
  idle : waiting ++ asked = [] → state.deferredMessages = []
  kept : state.messages.filter isPlain ++ state.deferredMessages = shown

def Quiet (state : Conversion) (waiting : List String) : Prop :=
  waiting ≠ [] → state.pendingToolCalls = [] ∧ state.pendingAssistantContent = none

theorem answerStep_plain (plain : isPlain message = true) (silent : message.toolCalls = none) :
    answerStep [] message = some [] := by
  simp only [isPlain, decide_eq_true_eq] at plain
  simp [answerStep, plain.1, silent]

theorem answers_plain {messages : List ChatMessage}
    (plain : ∀ message ∈ messages, isPlain message = true ∧ message.toolCalls = none) :
    messages.foldlM answerStep [] = some [] := by
  induction messages with
  | nil => rfl
  | cons message rest ih =>
    have first := plain message mem_cons_self
    rw [foldlM_cons, answerStep_plain first.1 first.2]
    exact ih fun other member => plain other (mem_cons_of_mem _ member)

theorem answerStep_busy (busy : pending ≠ []) (other : message.role ≠ "tool") :
    answerStep pending message = none := by
  rw [answerStep, if_neg other, if_neg busy]

variable {shown : List ChatMessage} {waiting : List String}

namespace Sync

variable {asked : List String}

section

variable (sync : Sync state waiting asked shown)
include sync

theorem flush (quiet : Quiet state waiting) :
    Sync (flushPendingAssistant state) (waiting ++ asked) [] shown ∧
      (flushPendingAssistant state).pendingAssistantContent = none ∧
      (flushPendingAssistant state).pendingToolCalls = [] := by
  rw [flushPendingAssistant]
  split
  · rename_i nothing
    have calls : state.pendingToolCalls = [] := List.isEmpty_iff.mp nothing.2
    have none_asked : asked = [] := by
      rw [← sync.calls, calls]
      rfl
    rw [none_asked, append_nil]
    rw [none_asked] at sync
    exact ⟨sync, isNone_iff_eq_none.mp nothing.1, calls⟩
  · rename_i something
    have answered_all : waiting = [] := by
      by_contra busy
      obtain ⟨calls, content⟩ := quiet busy
      exact something ⟨by rw [content]; rfl, by rw [calls]; rfl⟩
    subst answered_all
    have handed : answerStep [] ⟨"assistant", state.pendingAssistantContent,
        state.pendingReasoningContent,
        if state.pendingToolCalls.isEmpty then none else some state.pendingToolCalls, none⟩ =
        some asked := by
      rw [← sync.calls]
      cases state.pendingToolCalls with
      | nil | cons => rfl
    refine ⟨⟨?_, rfl, ?_, sync.deferred, ?_, ?_⟩, rfl, rfl⟩
    · rw [foldlM_append, sync.answered]
      simpa using handed
    · rw [append_nil]
      exact sync.ids
    · rw [append_nil]
      exact sync.idle
    · simpa [isPlain] using sync.kept

theorem push_lost (busy : waiting ≠ []) {message : ChatMessage} (other : message.role ≠ "tool") :
    (state.messages ++ [message]).foldlM answerStep [] = none := by
  rw [foldlM_append, sync.answered]
  simp [answerStep_busy busy other]

theorem flush_lost (busy : waiting ≠ []) (loud : ¬ Quiet state waiting) :
    (flushPendingAssistant state).messages.foldlM answerStep [] = none := by
  have something : ¬ (state.pendingAssistantContent.isNone ∧ state.pendingToolCalls.isEmpty) := by
    intro nothing
    exact loud fun _ => ⟨List.isEmpty_iff.mp nothing.2, isNone_iff_eq_none.mp nothing.1⟩
  rw [flushPendingAssistant, if_neg something]
  exact sync.push_lost busy (by decide : "assistant" ≠ "tool")

theorem call (id name arguments : String) :
    Sync (pushToolCall state id name arguments) waiting (asked ++ [id]) shown where
  answered := sync.answered
  calls := by
    rw [pushToolCall, map_append, sync.calls]
    rfl
  ids := by
    rw [pushToolCall, sync.ids, append_assoc]
  deferred := sync.deferred
  idle nothing := by simp at nothing
  kept := sync.kept

omit sync in
theorem output (sync : Sync state waiting [] shown) {id : String} (text : String)
    (distinct : waiting.Nodup) (asked : id ∈ waiting) :
    Sync (pushToolOutput state id text) (waiting.filter fun other => other ≠ id) [] shown := by
  have answered : (state.messages ++ [toolMessage id text]).foldlM answerStep [] =
      some (waiting.filter fun other => other ≠ id) := by
    rw [foldlM_append, sync.answered, filter_ne distinct id]
    simp [answerStep, toolMessage, asked]
  have ids : state.pendingToolCallIds.filter (fun pending => pending ≠ id) =
      waiting.filter fun other => other ≠ id := by
    rw [sync.ids, append_nil]
  have kept : (state.messages ++ [toolMessage id text]).filter isPlain ++ state.deferredMessages =
      shown := by
    simpa [isPlain, toolMessage] using sync.kept
  rw [pushToolOutput, ids]
  split
  · rename_i last
    have none_left := List.isEmpty_iff.mp last
    refine ⟨?_, sync.calls, by rw [append_nil], by simp, fun _ => rfl, ?_⟩
    · rw [foldlM_append, answered, none_left]
      exact answers_plain sync.deferred
    · have plain : state.deferredMessages.filter isPlain = state.deferredMessages :=
        filter_eq_self.mpr fun message member => (sync.deferred message member).1
      rw [filter_append, plain, append_nil]
      exact kept
  · rename_i more
    refine ⟨answered, sync.calls, by rw [append_nil], sync.deferred, ?_, kept⟩
    intro none_left
    rw [append_nil] at none_left
    exact absurd (List.isEmpty_iff.mpr none_left) more

theorem defer {message : ChatMessage} (busy : waiting ++ asked ≠ [])
    (plain : isPlain message = true) (silent : message.toolCalls = none) :
    Sync { state with deferredMessages := state.deferredMessages ++ [message] } waiting asked
      (shown ++ [message]) where
  answered := sync.answered
  calls := sync.calls
  ids := sync.ids
  deferred other member := by
    cases mem_append.mp member with
    | inl before => exact sync.deferred other before
    | inr new =>
      rw [mem_singleton.mp new]
      exact ⟨plain, silent⟩
  idle nothing := absurd nothing busy
  kept := by rw [← append_assoc, sync.kept]

omit sync in
theorem push (sync : Sync state [] [] shown) (message : ChatMessage)
    (plain : isPlain message = true) (silent : message.toolCalls = none) :
    Sync { state with messages := state.messages ++ [message] } [] [] (shown ++ [message]) where
  answered := by
    rw [foldlM_append, sync.answered]
    simpa using answerStep_plain plain silent
  calls := sync.calls
  ids := sync.ids
  deferred := sync.deferred
  idle := sync.idle
  kept := by
    have kept := sync.kept
    rw [sync.idle rfl, append_nil] at kept ⊢
    rw [filter_append, kept, filter_singleton, plain]
    rfl

theorem speech (content : Option Content) :
    Sync (Turn.apply state (.speech content)) waiting asked shown :=
  ⟨sync.answered, sync.calls, sync.ids, sync.deferred, sync.idle, sync.kept⟩

theorem thought (text : Option String) :
    Sync (Turn.apply state (.thought text)) waiting asked shown := by
  cases text with
  | none => exact sync
  | some text =>
    exact ⟨sync.answered, sync.calls, sync.ids, sync.deferred, sync.idle, sync.kept⟩

theorem ids_isEmpty : state.pendingToolCallIds.isEmpty = true ↔ waiting ++ asked = [] := by
  rw [sync.ids, List.isEmpty_iff]

end

end Sync

theorem merge_isSome (pending : Option Content) {converted : Option Content}
    (present : converted.isSome) : (mergePendingAssistantContent pending converted).isSome := by
  obtain ⟨value, rfl⟩ := isSome_iff_exists.mp present
  simp only [mergePendingAssistantContent]
  split <;> rfl

theorem plain_of_fits (paired : Paired pending (item :: rest))
    (fits : Turn.Fits json item (.plain message)) :
    isPlain message = true ∧ message.toolCalls = none := by
  obtain ⟨role, content, metadata, rfl, notAssistant, rfl⟩ := fits
  have notTool := paired.roles role content metadata mem_cons_self
  refine ⟨?_, rfl⟩
  simp only [chatMessageRole]
  split
  · rfl
  · exact decide_eq_true ⟨notTool, notAssistant⟩

theorem fits_plain (fits : Turn.Fits json item (.plain message)) :
    callId item = none ∧ outputId item = none ∧ isUntracked item = false ∧ speaks item = false ∧
      plainMessage json item = some message := by
  obtain ⟨role, content, metadata, rfl, notAssistant, rfl⟩ := fits
  simp [callId, outputId, isUntracked, speaks, plainMessage, notAssistant]

theorem loud_of_call (busy : waiting ≠ []) (id name arguments : String) :
    ¬ Quiet (pushToolCall state id name arguments) waiting := by
  intro quiet
  simpa [pushToolCall] using (quiet busy).1

theorem loud_of_speech (busy : waiting ≠ []) {content : Option Content} (present : content.isSome) :
    ¬ Quiet (Turn.apply state (.speech content)) waiting := by
  intro quiet
  have merged := merge_isSome state.pendingAssistantContent present
  have absent : mergePendingAssistantContent state.pendingAssistantContent content = none :=
    (quiet busy).2
  rw [absent] at merged
  cases merged

theorem lost_append {after : Conversion} {more : List ChatMessage}
    (lost : state.messages.foldlM answerStep [] = none)
    (extended : after.messages = state.messages ++ more) :
    after.messages.foldlM answerStep [] = none := by
  rw [extended, foldlM_append, lost]
  rfl

theorem not_adjacent_of_loud {asked : List String} (sync : Sync state waiting asked shown)
    (busy : waiting ≠ []) (loud : ¬ Quiet state waiting) (paired : Paired (waiting ++ asked) input)
    (converted : input.foldlM (convertItem json names) state = .ok final) :
    ¬ Adjacent (finishConversion final) := by
  induction input generalizing state asked shown with
  | nil =>
    have none_left := paired.nil_pending
    exact absurd (append_eq_nil_iff.mp none_left).1 busy
  | cons item rest ih =>
    have pending : waiting ++ asked ≠ [] := fun nothing =>
      busy (append_eq_nil_iff.mp nothing).1
    obtain ⟨turn, fits, converted⟩ := exists_first_turn converted
    cases turn with
    | call id name arguments =>
      have later := paired.call fits.1 fits.2.1
      rw [append_assoc] at later
      exact ih (sync.call id name arguments) (loud_of_call busy id name arguments) later
        converted
    | output id text =>
      obtain ⟨more, extended⟩ := pushToolOutput_messages (flushPendingAssistant state) id text
      exact not_adjacent_of_lost converted (lost_append (sync.flush_lost busy loud) extended)
    | untracked text =>
      exact not_adjacent_of_lost converted (lost_append (sync.flush_lost busy loud) rfl)
    | plain message =>
      have plain := plain_of_fits paired fits
      have silent := fits_plain fits
      rw [Turn.apply, if_neg (fun idle => pending (sync.ids_isEmpty.mp idle))] at converted
      exact ih (sync.defer pending plain.1 plain.2) loud
        (paired.other silent.1 silent.2.1) converted
    | speech content =>
      exact ih (sync.speech content) (loud_of_speech busy fits.2.2.2.2.2)
        (paired.other fits.1 fits.2.1) converted
    | thought text =>
      apply ih (sync.thought text) _ (paired.other fits.1 fits.2.1) converted
      cases text with
      | none | some => exact loud

theorem Sync.finish (sync : Sync final [] [] shown) :
    Adjacent (finishConversion final) ∧ (finishConversion final).filter isPlain = shown := by
  have flushed := (sync.flush fun busy => absurd rfl busy).1
  have ids : (flushPendingAssistant final).pendingToolCallIds = [] := flushed.ids
  have deferred := flushed.idle rfl
  have kept := flushed.kept
  rw [deferred, append_nil] at kept
  rw [finishConversion, Adjacent]
  simp only [ids, deferred, map_nil, append_nil]
  cases (flushPendingAssistant final).pendingReasoningContent with
  | none =>
    rw [append_nil]
    exact ⟨flushed.answered, kept⟩
  | some reasoning =>
    constructor
    · rw [foldlM_append, flushed.answered]
      rfl
    · rw [filter_append, kept]
      exact append_nil _

theorem adjacent_from {asked : List String} (sync : Sync state waiting asked shown)
    (quiet : Quiet state waiting) (paired : Paired (waiting ++ asked) input)
    (converted : input.foldlM (convertItem json names) state = .ok final) :
    (Adjacent (finishConversion final) ∧
        (finishConversion final).filter isPlain = shown ++ input.filterMap (plainMessage json)) ↔
      uninterrupted waiting asked input = true := by
  induction input generalizing state waiting asked shown with
  | nil =>
    cases converted
    obtain ⟨rfl, rfl⟩ := append_eq_nil_iff.mp paired.nil_pending
    rw [filterMap_nil, append_nil]
    exact iff_of_true sync.finish rfl
  | cons item rest ih =>
    obtain ⟨turn, fits, converted⟩ := exists_first_turn converted
    cases turn with
    | call id name arguments =>
      obtain ⟨called, silent, unshown⟩ := fits
      have later := paired.call called silent
      rw [append_assoc] at later
      have calling := sync.call id name arguments
      rw [filterMap_cons_none unshown, uninterrupted, called]
      simp only [decide_eq_true_eq]
      by_cases busy : waiting = []
      · rw [ih calling (fun other => absurd busy other) later converted]
        simp [busy]
      · have parted := not_adjacent_of_loud calling busy
          (loud_of_call busy id name arguments) later converted
        exact iff_of_false (fun both => parted both.1) fun both => busy both.1
    | output id text =>
      obtain ⟨uncalled, answers, unshown⟩ := fits
      obtain ⟨asked_before, later⟩ := paired.output uncalled answers
      obtain ⟨flushed, said, calls⟩ := sync.flush quiet
      have answered := flushed.output text paired.once.of_append_left asked_before
      rw [filterMap_cons_none unshown, uninterrupted, uncalled, answers]
      rw [← append_nil (List.filter _ _)] at later
      apply ih answered _ later converted
      intro _
      rw [pushToolOutput_calls, pushToolOutput_content]
      exact ⟨calls, said⟩
    | untracked text =>
      obtain ⟨uncalled, unanswering, tracked, shows⟩ := fits
      have flushed := (sync.flush quiet).1
      rw [filterMap_cons_some shows, uninterrupted, uncalled, unanswering]
      simp only [tracked, if_true, decide_eq_true_eq]
      by_cases busy : waiting ++ asked = []
      · obtain ⟨rfl, rfl⟩ := append_eq_nil_iff.mp busy
        have pushed := flushed.push ⟨"user", some (.string text), none, none, none⟩ rfl rfl
        rw [append_cons, ih pushed (fun other => absurd rfl other)
          (paired.other uncalled unanswering) converted]
        simp
      · have parted := not_adjacent_of_lost
          converted (flushed.push_lost busy (by decide : "user" ≠ "tool"))
        refine iff_of_false (fun both => parted both.1) fun both => busy ?_
        rw [both.1, both.2.1]
        rfl
    | plain message =>
      obtain ⟨plain, silent⟩ := plain_of_fits paired fits
      obtain ⟨uncalled, unanswering, tracked, mute, shows⟩ := fits_plain fits
      have later := paired.other uncalled unanswering
      rw [filterMap_cons_some shows, uninterrupted, uncalled, unanswering]
      simp only [tracked, mute]
      rw [Turn.apply] at converted
      by_cases busy : waiting ++ asked = []
      · rw [if_pos (sync.ids_isEmpty.mpr busy)] at converted
        obtain ⟨rfl, rfl⟩ := append_eq_nil_iff.mp busy
        have pushed := (sync.flush quiet).1.push message plain silent
        rw [append_cons]
        exact ih pushed (fun other => absurd rfl other) later converted
      · rw [if_neg fun idle => busy (sync.ids_isEmpty.mp idle)] at converted
        rw [append_cons]
        exact ih (sync.defer busy plain silent) quiet later converted
    | speech content =>
      obtain ⟨uncalled, unanswering, tracked, loud, unshown, present⟩ := fits
      have later := paired.other uncalled unanswering
      have said := sync.speech content
      rw [filterMap_cons_none unshown, uninterrupted, uncalled, unanswering]
      simp only [tracked, loud, if_false, if_true, Bool.false_eq_true, decide_eq_true_eq]
      by_cases busy : waiting = []
      · have rest_iff := ih said (fun other => absurd busy other) later converted
        rw [rest_iff]
        simp [busy]
      · have interrupts := not_adjacent_of_loud said busy (loud_of_speech busy present)
          later converted
        exact iff_of_false (fun both => interrupts both.1) fun both => busy both.1
    | thought text =>
      obtain ⟨uncalled, unanswering, tracked, mute, unshown⟩ := fits
      rw [filterMap_cons_none unshown, uninterrupted, uncalled, unanswering]
      simp only [tracked, mute]
      apply ih (sync.thought text) _ (paired.other uncalled unanswering) converted
      cases text with
      | none | some => exact quiet

theorem start_sync (instructions : String) :
    Sync (startConversion instructions) [] [] (startConversion instructions).messages := by
  refine ⟨?_, rfl, rfl, by simp [startConversion], fun _ => rfl, ?_⟩
  · rw [startConversion]
    split <;> rfl
  · rw [startConversion]
    split <;> rfl

/-- Where each call id is called once and answered once, later, results follow their calls at once
and the other messages keep their order exactly if no group of calls is interrupted. -/
theorem tool_results_adjacent_iff (json : JsonText) (request : MessagesRequest)
    (messages : List ChatMessage) (paired : Paired [] request.input)
    (converted : convertRequest json request = .ok messages) :
    (Adjacent messages ∧ messages.filter isPlain =
        (startConversion request.instructions).messages ++
          request.input.filterMap (plainMessage json)) ↔
      uninterrupted [] [] request.input = true := by
  rw [convertRequest] at converted
  cases ok : request.input.foldlM (convertItem json request.originalFunctionNames)
      (startConversion request.instructions) with
  | error error =>
    rw [ok] at converted
    cases converted
  | ok final =>
    rw [ok] at converted
    cases converted
    exact adjacent_from (start_sync request.instructions) (fun busy => absurd rfl busy) paired ok

/-! ### Three function calls -/

theorem later_of_take
    (checked : ((List.range input.length).all fun k => (input[k]?.bind outputId).all fun id =>
      decide (id ∈ pending ++ (input.take k).filterMap callId)) = true) :
    ∀ before item after id, input = before ++ item :: after → outputId item = some id →
      id ∈ pending ++ before.filterMap callId := by
  intro before item after id split output
  have here := all_eq_true.mp checked before.length (by simp [split])
  simpa [split, output] using here

def plainText : JsonText := ⟨id, fun _ => "", fun _ _ => "", fun _ => "", fun _ _ _ => ""⟩

def functionCall (callId : String) : ResponseItem := .functionCall none "Bash" none "" callId

def functionOutput (callId : String) : ResponseItem :=
  .functionCallOutput none (some callId) none none (.fromText "done")

def developerSays (text : String) : ResponseItem := .message "developer" [.inputText text] none

def parallelCalls : MessagesRequest where
  instructions := ""
  input := [functionCall "1", functionCall "2", developerSays "approved", functionOutput "1",
    functionOutput "2"]
  originalFunctionNames := []

theorem parallel_results_adjacent :
    ∃ messages, convertRequest plainText parallelCalls = .ok messages ∧ Adjacent messages ∧
      messages.filter isPlain = [⟨"user", some (.string "approved"), none, none, none⟩] := by
  have paired : Paired [] parallelCalls.input := by
    refine ⟨by decide, by decide, later_of_take (by decide), ?_⟩
    intro role content metadata member
    simp only [parallelCalls, functionCall, developerSays, functionOutput, mem_cons,
      ResponseItem.message.injEq, reduceCtorEq, not_mem_nil, false_or, or_false] at member
    rw [member.1]
    decide
  exact ⟨_, rfl, (tool_results_adjacent_iff plainText parallelCalls _ paired rfl).mpr rfl⟩

def interruptedCalls : MessagesRequest where
  instructions := ""
  input := [functionCall "1", functionCall "2", functionOutput "1", functionCall "3",
    functionOutput "2", functionOutput "3"]
  originalFunctionNames := []

/-- The third call's message parts the second from its result. -/
theorem third_call_parts_results :
    Paired [] interruptedCalls.input ∧
      ∃ messages, convertRequest plainText interruptedCalls = .ok messages ∧
        ¬ Adjacent messages := by
  refine ⟨⟨by decide, by decide, later_of_take (by decide), ?_⟩, _, rfl, by decide⟩
  intro role content metadata member
  simp [interruptedCalls, functionCall, functionOutput] at member

end OpenInterpreter.ChatAdjacency
