import OpenInterpreter.RolloutReplay
import OpenInterpreter.Text

/-! The turns that a client shows for a rollout: `ThreadHistoryBuilder` of
`app-server-protocol/src/protocol/thread_history.rs`. Items are told apart as far as the builder
does, by their ids and as user messages, reasoning and others; the status of a turn is left out. -/

namespace OpenInterpreter.ThreadHistory

open Rollout

inductive UserInput where
  | text (text : List Char)
  | image (image : ImageReference)
  | localImage (path : List Char)
  | audio (url : List Char)
  | localAudio (path : List Char)
  deriving DecidableEq

abbrev ItemId := List Char

def itemId (index : Nat) : ItemId := "item-".toList ++ (toString index).toList

inductive ThreadItem where
  | userMessage (id : ItemId) (content : List UserInput)
  | hookPrompt (id : ItemId)
  | reasoning (id : ItemId)
  | rendered (id : ItemId)
  deriving DecidableEq

def ThreadItem.id : ThreadItem → ItemId
  | .userMessage id _ | .hookPrompt id | .reasoning id | .rendered id => id

structure PendingTurn where
  id : TurnId
  items : List ThreadItem := []
  openedExplicitly : Bool := false
  sawCompaction : Bool := false
  deriving DecidableEq

structure ThreadHistoryBuilder where
  turns : List PendingTurn := []
  currentTurn : Option PendingTurn := none
  nextItemIndex : Nat := 1
  nextRolloutIndex : Nat := 0
  deriving DecidableEq

/-- What the handler of an event does with an item other than a user message: it adds one with the
next id, adds to the reasoning that comes last, or puts one in the place of the item with its id, in
the current turn or in one that the event names. An event about the review mode opens a turn that it
names and that is not there. -/
inductive ItemChange where
  | nothing
  | push
  | reasoning
  | upsert (turnId : Option TurnId) (id : ItemId)
  | review (turnId : Option TurnId) (id : Option ItemId)
  deriving DecidableEq

def ItemChange.givenId : ItemChange → Option ItemId
  | .upsert _ id => some id
  | .review _ id => id
  | _ => none

/-- The id of a hook prompt in a message, and what the events do that are not told apart here: their
index in the rollout is read besides. -/
structure BuilderOps where
  parseHookPromptMessage : List ContentItem → Option ItemId
  change : Nat → EventMsg → ItemChange

def orderedImages : List UserMessageImageKind → List (List Char) → List (List Char) →
    List UserInput
  | [], _, _ => []
  | .inline :: order, image :: images, fileIds =>
    .image (.inline image) :: orderedImages order images fileIds
  | .file :: order, images, fileId :: fileIds =>
    .image (.file fileId) :: orderedImages order images fileIds
  | .inline :: order, [], fileIds => orderedImages order [] fileIds
  | .file :: order, images, [] => orderedImages order images []

def hasCompleteImageOrder (event : UserMessageEvent) : Bool :=
  !event.imageOrder.isEmpty &&
    decide (event.imageOrder.count .inline = event.images.length) &&
    decide (event.imageOrder.count .file = event.fileIds.length)

def buildUserInputs (payload : UserMessageEvent) : List UserInput :=
  (if Text.trim payload.message = [] then [] else [.text payload.message]) ++
    (if hasCompleteImageOrder payload then
      orderedImages payload.imageOrder payload.images payload.fileIds
    else
      payload.images.map (fun url => .image (.inline url)) ++
        payload.fileIds.map fun fileId => .image (.file fileId)) ++
    payload.localImages.map .localImage ++ payload.audio.map .audio ++
    payload.localAudio.map .localAudio

def upsertItem (item : ThreadItem) : List ThreadItem → List ThreadItem
  | [] => [item]
  | existing :: rest =>
    if existing.id = item.id then item :: rest else existing :: upsertItem item rest

def PendingTurn.upsert (turn : PendingTurn) (item : ThreadItem) : PendingTurn :=
  { turn with items := upsertItem item turn.items }

def upsertFirst (turnId : TurnId) (item : ThreadItem) : List PendingTurn → List PendingTurn
  | [] => []
  | turn :: turns =>
    if turn.id = turnId then turn.upsert item :: turns else turn :: upsertFirst turnId item turns

namespace ThreadHistoryBuilder

variable (builder : ThreadHistoryBuilder)

def finishCurrentTurn : ThreadHistoryBuilder :=
  match builder.currentTurn with
  | none => builder
  | some turn =>
    if turn.items = [] ∧ !turn.openedExplicitly ∧ !turn.sawCompaction then
      { builder with currentTurn := none }
    else { builder with turns := builder.turns ++ [turn], currentTurn := none }

def implicitTurn : PendingTurn where
  id := "rollout-".toList ++ (toString (builder.nextRolloutIndex - 1)).toList

def ensureTurn : PendingTurn :=
  builder.currentTurn.getD builder.implicitTurn

def pushItemInCurrentTurn (item : ThreadItem) : ThreadHistoryBuilder :=
  let turn := builder.ensureTurn
  { builder with currentTurn := some { turn with items := turn.items ++ [item] } }

def nextItemId : ItemId × ThreadHistoryBuilder :=
  (itemId builder.nextItemIndex, { builder with nextItemIndex := builder.nextItemIndex + 1 })

def upsertItemInCurrentTurn (item : ThreadItem) : ThreadHistoryBuilder :=
  { builder with currentTurn := some (builder.ensureTurn.upsert item) }

def upsertItemInTurnId (turnId : TurnId) (item : ThreadItem) : ThreadHistoryBuilder :=
  match builder.currentTurn.filter fun turn => turn.id = turnId with
  | some turn => { builder with currentTurn := some (turn.upsert item) }
  | none => { builder with turns := upsertFirst turnId item builder.turns }

def upsertReviewModeItem (turnId : Option TurnId) (item : ThreadItem) : ThreadHistoryBuilder :=
  match turnId with
  | none => builder.upsertItemInCurrentTurn item
  | some turnId =>
    let known := (builder.currentTurn.any fun turn => turn.id = turnId) ||
      builder.turns.any fun turn => turn.id = turnId
    let builder :=
      if known then builder
      else { builder.finishCurrentTurn with currentTurn := some { id := turnId } }
    builder.upsertItemInTurnId turnId item

def changeItem : ItemChange → ThreadHistoryBuilder
  | .nothing => builder
  | .push => builder.nextItemId.2.pushItemInCurrentTurn (.rendered builder.nextItemId.1)
  | .reasoning =>
    match builder.ensureTurn.items.getLast? with
    | some (.reasoning _) => builder
    | _ => builder.nextItemId.2.pushItemInCurrentTurn (.reasoning builder.nextItemId.1)
  | .upsert none id => builder.upsertItemInCurrentTurn (.rendered id)
  | .upsert (some turnId) id => builder.upsertItemInTurnId turnId (.rendered id)
  | .review turnId (some id) => builder.upsertReviewModeItem turnId (.rendered id)
  | .review turnId none =>
    builder.nextItemId.2.upsertReviewModeItem turnId (.rendered builder.nextItemId.1)

def handleUserMessage (payload : UserMessageEvent) : ThreadHistoryBuilder :=
  let builder :=
    if builder.currentTurn.any fun turn =>
        !turn.openedExplicitly && !(turn.sawCompaction && turn.items.isEmpty) then
      builder.finishCurrentTurn
    else builder
  builder.nextItemId.2.pushItemInCurrentTurn
    (.userMessage builder.nextItemId.1 (buildUserInputs payload))

def handleTurnStarted (turnId : TurnId) : ThreadHistoryBuilder :=
  { builder.finishCurrentTurn with
    currentTurn := some { id := turnId, openedExplicitly := true } }

def handleTurnComplete (turnId : TurnId) : ThreadHistoryBuilder :=
  if builder.currentTurn.any fun turn => turn.id = turnId then builder.finishCurrentTurn
  else if builder.turns.any fun turn => turn.id = turnId then builder
  else builder.finishCurrentTurn

def handleThreadRollback (numTurns : Nat) : ThreadHistoryBuilder :=
  let finished := builder.finishCurrentTurn
  let turns :=
    if finished.turns.length ≤ numTurns then []
    else finished.turns.take (finished.turns.length - numTurns)
  { finished with
    turns
    nextItemIndex := (turns.map fun turn => turn.items.length).sum + 1 }

def handleResponseItem (ops : BuilderOps) (builder : ThreadHistoryBuilder) :
    ResponseItem → ThreadHistoryBuilder
  | .message .user content =>
    match ops.parseHookPromptMessage content with
    | some id => builder.pushItemInCurrentTurn (.hookPrompt id)
    | none => builder
  | _ => builder

def handleEvent (ops : BuilderOps) (builder : ThreadHistoryBuilder) (event : EventMsg) :
    ThreadHistoryBuilder :=
  match event with
  | .userMessage payload => builder.handleUserMessage payload
  | .threadRolledBack numTurns => builder.handleThreadRollback numTurns
  | .turnAborted _ => builder
  | .turnStarted turnId => builder.handleTurnStarted turnId
  | .turnComplete turnId => builder.handleTurnComplete turnId
  | .itemCompleted .. | .other _ =>
    builder.changeItem (ops.change (builder.nextRolloutIndex - 1) event)

def handleRolloutItem {State : Type} (ops : BuilderOps) (builder : ThreadHistoryBuilder)
    (item : RolloutItem State) : ThreadHistoryBuilder :=
  let builder := { builder with nextRolloutIndex := builder.nextRolloutIndex + 1 }
  match item with
  | .event event => builder.handleEvent ops event
  | .compacted _ => { builder with
      currentTurn := some { builder.ensureTurn with sawCompaction := true } }
  | .responseItem response => builder.handleResponseItem ops response.item
  | _ => builder

def finish : List PendingTurn := builder.finishCurrentTurn.turns

end ThreadHistoryBuilder

def buildTurnsFromRolloutItems {State : Type} (ops : BuilderOps) (items : List (RolloutItem State)) :
    List PendingTurn :=
  (items.foldl (ThreadHistoryBuilder.handleRolloutItem ops) {}).finish

def ThreadItem.userContent : ThreadItem → Option (List UserInput)
  | .userMessage _ content => some content
  | _ => none

def PendingTurn.userMessages (turn : PendingTurn) : List (List UserInput) :=
  turn.items.filterMap ThreadItem.userContent

end OpenInterpreter.ThreadHistory
