import Mathlib.Data.List.Basic

/-! The response items of `protocol/src/models.rs` with the fields that prompt normalization and
the chat wire read. JSON values inside items are kept serialized. -/

namespace OpenInterpreter.PromptItems

inductive ImageReference where
  | inline (imageUrl : String)
  | file (fileId : String)
  deriving DecidableEq

inductive ContentItem where
  | inputText (text : String)
  | inputImage (image : ImageReference)
  | inputAudio (audioUrl : String)
  | outputText (text : String)
  deriving DecidableEq

/-- `InternalChatMessageMetadataPassthrough`. -/
structure MessageMetadata where
  contentItemKinds : Option (List String) := none
  rest : List String := []
  deriving DecidableEq

inductive FunctionCallOutputContentItem where
  | inputText (text : String)
  | inputImage (image : ImageReference)
  | inputAudio (audioUrl : String)
  | inputVideo (videoUrl : String)
  | encryptedContent (encryptedContent : String)
  deriving DecidableEq

inductive FunctionCallOutputBody where
  | text (content : String)
  | contentItems (items : List FunctionCallOutputContentItem)
  deriving DecidableEq

structure FunctionCallOutputPayload where
  body : FunctionCallOutputBody
  success : Option Bool := none
  deriving DecidableEq

def FunctionCallOutputPayload.fromText (content : String) : FunctionCallOutputPayload :=
  ⟨.text content, none⟩

structure LocalShellExecAction where
  command : List String
  workingDirectory : Option String
  timeoutMs : Option Nat
  deriving DecidableEq

inductive ResponseItem where
  | message (role : String) (content : List ContentItem) (metadata : Option MessageMetadata)
  | functionCall (id : Option String) (name : String) (namespaceName : Option String)
      (arguments callId : String)
  | localShellCall (id callId : Option String) (action : LocalShellExecAction)
  | toolSearchCall (id callId : Option String) (execution arguments : String)
  | customToolCall (id : Option String) (callId name input : String)
  | functionCallOutput (id callId name namespaceName : Option String)
      (output : FunctionCallOutputPayload)
  | customToolCallOutput (id : Option String) (callId : String) (name : Option String)
      (output : FunctionCallOutputPayload)
  | toolSearchOutput (id callId : Option String) (status execution : String) (tools : List String)
  | reasoning (content : Option (List String))
  | imageGenerationCall (result : String)
  | other (content : String)
  deriving DecidableEq

structure ResponseItemEnvelope (Metadata : Type) where
  item : ResponseItem
  metadata : Option Metadata := none
  deriving DecidableEq

inductive CallKind where
  | function
  | toolSearch
  | custom
  deriving DecidableEq

def callOf : ResponseItem → Option (CallKind × String)
  | .functionCall _ _ _ _ callId => some (.function, callId)
  | .localShellCall _ (some callId) _ => some (.function, callId)
  | .toolSearchCall _ (some callId) _ _ => some (.toolSearch, callId)
  | .customToolCall _ callId _ _ => some (.custom, callId)
  | _ => none

def outputOf : ResponseItem → Option (CallKind × String)
  | .functionCallOutput _ (some callId) _ _ _ => some (.function, callId)
  | .toolSearchOutput _ (some callId) _ _ _ => some (.toolSearch, callId)
  | .customToolCallOutput _ callId _ _ => some (.custom, callId)
  | _ => none

def clientOutputOf : ResponseItem → Option (CallKind × String)
  | .toolSearchOutput _ (some callId) _ execution _ =>
    if execution = "server" then none else some (.toolSearch, callId)
  | item => outputOf item

end OpenInterpreter.PromptItems
