import Mathlib.Data.List.Basic

/-! The records of a rollout file and the classes of history items that replay tells apart:
`protocol/src/models.rs`, `codex_rollout` and the predicates of
`core/src/context_manager/history.rs`. -/

namespace OpenInterpreter.Rollout

abbrev TurnId := List Char

inductive Role where
  | user
  | assistant
  | developer
  | system
  | other (name : List Char)
  deriving DecidableEq

inductive ImageReference where
  | inline (imageUrl : List Char)
  | file (fileId : List Char)
  deriving DecidableEq

inductive ContentItem where
  | inputText (text : List Char)
  | outputText (text : List Char)
  | inputImage (image : ImageReference)
  | inputAudio (audioUrl : List Char)
  deriving DecidableEq

/-- `ResponseItem`. The kinds that every function here treats alike (calls, reasoning, tool
lists, compaction summaries) are one constructor with their content. -/
inductive ResponseItem where
  | message (role : Role) (content : List ContentItem)
  | agentMessage (author recipient content : List Char)
  | configurationUpdate (update : List Char)
  | toolOutput (callId output : List Char)
  | modelItem (content : List Char)
  | compactionTrigger
  | other
  deriving DecidableEq

/-- `ResponseItemEnvelope`: the item, the turn id stamped on it, and the harness metadata that
recording reads. -/
structure ResponseItemEnvelope where
  item : ResponseItem
  turnId : Option TurnId
  harnessAuthoredConfiguration : Bool
  historyTruncationTokenLimit : Option Nat
  deriving DecidableEq

structure CompactedItem where
  message : List Char
  replacementHistory : Option (List ResponseItemEnvelope)
  windowNumber : Option Nat
  firstWindowId : Option (List Char)
  previousWindowId : Option (List Char)
  windowId : Option (List Char)
  deriving DecidableEq

structure PreviousTurnSettings where
  model : List Char
  compHash : Option (List Char)
  realtimeActive : Option Bool
  deriving DecidableEq

structure TurnContextItem where
  turnId : Option TurnId
  model : List Char
  compHash : Option (List Char)
  realtimeActive : Option Bool
  rest : List Char
  deriving DecidableEq

def TurnContextItem.settings (context : TurnContextItem) : PreviousTurnSettings :=
  ⟨context.model, context.compHash, context.realtimeActive⟩

inductive UserMessageImageKind where
  | inline
  | file
  deriving DecidableEq

structure UserMessageEvent where
  message : List Char
  images : List (List Char)
  fileIds : List (List Char)
  imageOrder : List UserMessageImageKind
  localImages : List (List Char)
  audio : List (List Char)
  localAudio : List (List Char)
  deriving DecidableEq

inductive EventMsg where
  | threadRolledBack (numTurns : Nat)
  | turnStarted (turnId : TurnId)
  | turnComplete (turnId : TurnId)
  | turnAborted (turnId : Option TurnId)
  | userMessage (event : UserMessageEvent)
  | itemCompleted (turnId : TurnId) (isUserMessage : Bool)
  | other (turnId : Option TurnId)
  deriving DecidableEq

/-- `RolloutItem` over the type of persisted world states. A session meta record carries the
window id of its `context_window`; an inter-agent communication is its `to_model_input_item`. -/
inductive RolloutItem (State : Type) where
  | sessionMeta (contextWindowId : Option (List Char))
  | responseItem (response : ResponseItemEnvelope)
  | interAgentCommunication (author recipient content : List Char) (turnId : Option TurnId)
  | interAgentCommunicationMetadata
  | compacted (item : CompactedItem)
  | turnContext (context : TurnContextItem)
  | worldState (full : Bool) (state : State)
  | event (message : EventMsg)
  | tokenUsageRecord (turnId : TurnId)
  | securityRiskScore
  | aside
  deriving DecidableEq

def toModelInputItem (author recipient content : List Char) (turnId : Option TurnId) :
    ResponseItemEnvelope where
  item := .agentMessage author recipient content
  turnId := turnId
  harnessAuthoredConfiguration := false
  historyTruncationTokenLimit := none

/-- The text matchers and encoders that replay calls: contextual fragments, inter-agent
instructions, output truncation, window ids, the rebuild of a legacy compaction, and the
world-state snapshots. -/
structure ReplayOps (State Snapshot : Type) where
  isContextualUserMessageContent : List ContentItem → Bool
  isContextualDevMessageContent : List ContentItem → Bool
  isMessageContent : List ContentItem → Bool
  rebuiltAfterRollback : List Char → Bool
  truncateOutput : Option Nat → List Char → List Char
  parseUuidV7 : List Char → Option (List Char)
  buildCompactedHistory : List ResponseItemEnvelope → List Char → List ResponseItemEnvelope
  snapshotFrom : State → Snapshot
  applyMergePatch : Snapshot → State → Snapshot

variable {State Snapshot : Type} (ops : ReplayOps State Snapshot)

def isUserTurnBoundary : ResponseItem → Bool
  | .agentMessage .. => true
  | .message .user content => !ops.isContextualUserMessageContent content
  | .message .assistant content => ops.isMessageContent content
  | _ => false

def isPreTurnContextUpdate : ResponseItem → Bool
  | .message .developer content => ops.isContextualDevMessageContent content
  | .message .user content => ops.isContextualUserMessageContent content
  | _ => false

variable (envelope : ResponseItemEnvelope)

def isApiMessage : Bool :=
  match envelope.item with
  | .message role _ => decide (role ≠ .system)
  | .configurationUpdate _ => envelope.harnessAuthoredConfiguration
  | .compactionTrigger | .other => false
  | _ => true

def processed : ResponseItemEnvelope :=
  match envelope.item with
  | .toolOutput callId output =>
    { envelope with
      item := .toolOutput callId
        (ops.truncateOutput envelope.historyTruncationTokenLimit output) }
  | _ => envelope

def turnIdsAreCompatible : Option TurnId → Option TurnId → Bool
  | some active, some item => decide (item = active)
  | _, _ => true

@[simp]
theorem compatible_none (item : Option TurnId) : turnIdsAreCompatible none item = true := rfl

@[simp]
theorem compatible_some (active item : TurnId) :
    turnIdsAreCompatible (some active) (some item) = decide (item = active) := rfl

theorem compatible_self (item : Option TurnId) : turnIdsAreCompatible item item = true := by
  cases item with
  | none => rfl
  | some turnId => exact decide_eq_true rfl

theorem not_boundary_of_preTurnContextUpdate (item : ResponseItem)
    (contextual : isPreTurnContextUpdate ops item = true) :
    isUserTurnBoundary ops item = false := by
  cases item with
  | message role content => cases role <;> simp_all [isPreTurnContextUpdate, isUserTurnBoundary]
  | _ => simp_all [isPreTurnContextUpdate]

@[simp]
theorem boundary_processed :
    isUserTurnBoundary ops (processed ops envelope).item = isUserTurnBoundary ops envelope.item := by
  rcases envelope with ⟨item, _, _, _⟩
  cases item <;> rfl

end OpenInterpreter.Rollout
