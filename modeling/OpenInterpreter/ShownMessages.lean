import OpenInterpreter.ThreadHistory
import OpenInterpreter.TruncatedStack
import OpenInterpreter.TurnRollback

/-! The user messages that a client shows after rollbacks against those that the model remembers. The
client counts turns and the history counts user messages, and both are stacks that markers
truncate. -/

namespace OpenInterpreter.ShownMessages

open Rollout ContextHistory RolloutReplay TurnRollback ThreadHistory TruncatedStack List
open ThreadHistoryBuilder

variable {State Snapshot : Type}

/-- A turn without compaction, and its user message if it has one: the event that clients read and
the response item that the history records. -/
structure MessageTurn (ops : ReplayOps State Snapshot) where
  turn : Turn State
  message : Option (UserMessageEvent × ResponseItemEnvelope)
  events : turn.records.filterMap (fun record =>
    match record with
    | .event (.userMessage event) => some event
    | _ => none) = (message.map Prod.fst).toList
  instructions : (turn.recorded ops).filter (isBoundary ops) = (message.map Prod.snd).toList
  user : ∀ pair ∈ message, ∃ content, pair.2.item = .message .user content
  bracketed : ∀ turnId, .event (.turnComplete turnId) ∉ turn.records
  uncompacted : ∀ compacted, .compacted compacted ∉ turn.records

variable {ops : ReplayOps State Snapshot}

def rolloutOf (steps : List (Step (MessageTurn ops))) : List (RolloutItem State) :=
  steps.flatMap fun step =>
    match step with
    | .push turn => turn.turn.items
    | .pop numTurns => [.event (.threadRolledBack numTurns)]

def shownMessages (turns : List PendingTurn) : List (List UserInput) :=
  turns.flatMap PendingTurn.userMessages

def rememberedMessages (ops : ReplayOps State Snapshot) (history : List ResponseItemEnvelope) :
    List ResponseItemEnvelope :=
  history.filter (isBoundary ops)

variable (steps : List (Step (MessageTurn ops)))

section

variable (builderOps : BuilderOps)

def shownBy : RolloutItem State → Option (List UserInput)
  | .event (.userMessage event) => some (buildUserInputs event)
  | _ => none

def MessageTurn.shown (turn : MessageTurn ops) : List (List UserInput) :=
  ((turn.message.map Prod.fst).map buildUserInputs).toList

/-- The ids of the turn's user messages are made up by the builder, below the bound. -/
def Below (bound : Nat) (turn : PendingTurn) : Prop :=
  ∀ id content, .userMessage id content ∈ turn.items → ∃ number < bound, id = itemId number

structure Building (builder : ThreadHistoryBuilder) (shown : List (List (List UserInput)))
    (turnId : TurnId) (messages : List (List UserInput)) : Prop where
  turns : builder.turns.map PendingTurn.userMessages = shown
  named : ∀ turn ∈ builder.turns, ∃ bound, Below bound turn
  current : ∃ turn, builder.currentTurn = some turn ∧ turn.id = turnId ∧
    turn.openedExplicitly = true ∧ turn.userMessages = messages ∧ Below builder.nextItemIndex turn

/-- The id that an event of the turn brings along is none that the builder makes up, and what it says
about the review mode is about this turn. -/
structure Addressed (builderOps : BuilderOps) (turnId : TurnId) (event : EventMsg) : Prop where
  ids : ∀ index, ∀ id ∈ (builderOps.change index event).givenId, ∀ number, id ≠ itemId number
  reviews : ∀ index named id, builderOps.change index event = .review (some named) id →
    named = turnId

theorem itemId_injective {left right : Nat} (same : itemId left = itemId right) : left = right := by
  have digits : Nat.toDigits 10 left = Nat.toDigits 10 right := by
    have texts : (toString left).toList = (toString right).toList := append_cancel_left same
    rwa [Nat.toString_eq_repr, Nat.toString_eq_repr, Nat.toList_repr, Nat.toList_repr] at texts
  have read := congrArg (fun digits => Nat.ofDigitChars 10 digits 0) digits
  simpa using read

section

variable {id : ItemId} {items : List ThreadItem} {turn : PendingTurn}

theorem userContent_upsert (apart : ∀ content, .userMessage id content ∉ items) :
    (upsertItem (.rendered id) items).filterMap ThreadItem.userContent =
      items.filterMap ThreadItem.userContent := by
  induction items with
  | nil => rfl
  | cons existing rest ih =>
    rw [upsertItem]
    split
    · rename_i same
      cases existing with
      | userMessage other content =>
        have equal : other = id := same
        exact absurd (equal ▸ mem_cons_self) (apart content)
      | hookPrompt | reasoning | rendered => rfl
    · rw [filterMap_cons, filterMap_cons,
        ih fun content member => apart content (mem_cons_of_mem _ member)]

theorem mem_of_mem_upsert {other : ItemId} {content : List UserInput}
    (member : .userMessage other content ∈ upsertItem (.rendered id) items) :
    .userMessage other content ∈ items := by
  induction items with
  | nil => simp [upsertItem] at member
  | cons existing rest ih =>
    rw [upsertItem] at member
    split at member
    · exact mem_cons_of_mem _ ((mem_cons.mp member).resolve_left nofun)
    · exact (mem_cons.mp member).elim (fun head => head ▸ mem_cons_self)
        fun later => mem_cons_of_mem _ (ih later)

theorem Below.upsert {bound : Nat} (below : Below bound turn) :
    Below bound (turn.upsert (.rendered id)) :=
  fun other content member => below other content (mem_of_mem_upsert member)

theorem Below.apart {bound : Nat} (below : Below bound turn)
    (foreign : ∀ number < bound, id ≠ itemId number) (content : List UserInput) :
    .userMessage id content ∉ turn.items := by
  intro member
  obtain ⟨number, inside, same⟩ := below id content member
  exact foreign number inside same

theorem upsertFirst_kept (turnId : TurnId) (foreign : ∀ number, id ≠ itemId number)
    {turns : List PendingTurn} (named : ∀ turn ∈ turns, ∃ bound, Below bound turn) :
    (upsertFirst turnId (.rendered id) turns).map PendingTurn.userMessages =
        turns.map PendingTurn.userMessages ∧
      ∀ turn ∈ upsertFirst turnId (.rendered id) turns, ∃ bound, Below bound turn := by
  induction turns with
  | nil => exact ⟨rfl, named⟩
  | cons turn turns ih =>
    obtain ⟨⟨bound, below⟩, rest⟩ := forall_mem_cons.mp named
    rw [upsertFirst]
    split
    · refine ⟨?_, forall_mem_cons.mpr ⟨⟨bound, below.upsert⟩, rest⟩⟩
      rw [map_cons, map_cons]
      exact congrArg (· :: _) (userContent_upsert (below.apart fun number _ => foreign number))
    · rw [map_cons, map_cons, (ih rest).1]
      exact ⟨rfl, forall_mem_cons.mpr ⟨⟨bound, below⟩, (ih rest).2⟩⟩

end

def Foreign (builder : ThreadHistoryBuilder) (id : ItemId) : Prop :=
  ∀ turn ∈ builder.currentTurn, ∀ content, .userMessage id content ∉ turn.items

variable {builderOps} {builder : ThreadHistoryBuilder} {shown : List (List (List UserInput))}
  {turnId : TurnId} {messages : List (List UserInput)}

section

variable (building : Building builder shown turnId messages)
include building

theorem Building.counted :
    Building { builder with nextRolloutIndex := builder.nextRolloutIndex + 1 } shown turnId
      messages :=
  ⟨building.turns, building.named, building.current⟩

theorem Building.numbered : Building builder.nextItemId.2 shown turnId messages := by
  obtain ⟨turns, named, turn, current, id, opened, same, below⟩ := building
  refine ⟨turns, named, turn, current, id, opened, same, fun id content member => ?_⟩
  obtain ⟨number, inside, made⟩ := below id content member
  exact ⟨number, Nat.lt_succ_of_lt inside, made⟩

theorem Building.push (item : ThreadItem)
    (numbered : ∀ id content, item = .userMessage id content →
      ∃ number < builder.nextItemIndex, id = itemId number) :
    Building (builder.pushItemInCurrentTurn item) shown turnId
      (messages ++ item.userContent.toList) := by
  obtain ⟨turns, named, turn, current, id, opened, rfl, below⟩ := building
  refine ⟨turns, named, { turn with items := turn.items ++ [item] }, ?_, id, opened, ?_, ?_⟩
  · simp [pushItemInCurrentTurn, ensureTurn, current]
  · rw [PendingTurn.userMessages, filterMap_append, PendingTurn.userMessages]
    cases item <;> rfl
  · intro id content member
    rcases mem_append.mp member with old | new
    · exact below id content old
    · exact numbered id content (mem_singleton.mp new).symm

theorem Building.foreign {id : ItemId}
    (other : ∀ number < builder.nextItemIndex, id ≠ itemId number) : Foreign builder id := by
  intro turn present
  obtain ⟨found, current, -, -, -, below⟩ := building.current
  cases current.symm.trans present
  exact below.apart other

theorem Building.upsertCurrent {id : ItemId} (foreign : Foreign builder id) :
    Building (builder.upsertItemInCurrentTurn (.rendered id)) shown turnId messages := by
  obtain ⟨turns, named, turn, current, same, opened, rfl, below⟩ := building
  refine ⟨turns, named, turn.upsert (.rendered id), ?_, same, opened, ?_, below.upsert⟩
  · simp [upsertItemInCurrentTurn, ensureTurn, current]
  · exact userContent_upsert (foreign turn current)

theorem Building.upsertOwn {id : ItemId} (foreign : Foreign builder id) :
    Building (builder.upsertItemInTurnId turnId (.rendered id)) shown turnId messages := by
  have same : builder.upsertItemInTurnId turnId (.rendered id) =
      builder.upsertItemInCurrentTurn (.rendered id) := by
    obtain ⟨turn, current, own, -⟩ := building.current
    simp [upsertItemInTurnId, upsertItemInCurrentTurn, ensureTurn, current, own, Option.filter]
  rw [same]
  exact building.upsertCurrent foreign

theorem Building.upsertTurn (other : TurnId) {id : ItemId}
    (foreign : ∀ number, id ≠ itemId number) :
    Building (builder.upsertItemInTurnId other (.rendered id)) shown turnId messages := by
  by_cases own : turnId = other
  · subst own
    exact building.upsertOwn (building.foreign fun number _ => foreign number)
  obtain ⟨turns, named, turn, current, rfl, rest⟩ := building
  have kept := upsertFirst_kept other foreign named
  have elsewhere : builder.upsertItemInTurnId other (.rendered id) =
      { builder with turns := upsertFirst other (.rendered id) builder.turns } := by
    simp [upsertItemInTurnId, current, own, Option.filter]
  rw [elsewhere]
  exact ⟨kept.1.trans turns, kept.2, turn, current, rfl, rest⟩

theorem Building.review (other : Option TurnId) (own : ∀ named ∈ other, named = turnId)
    {id : ItemId} (foreign : Foreign builder id) :
    Building (builder.upsertReviewModeItem other (.rendered id)) shown turnId messages := by
  cases other with
  | none => exact building.upsertCurrent foreign
  | some named =>
    cases own named rfl
    obtain ⟨turn, current, same, -⟩ := building.current
    have known : (builder.currentTurn.any fun turn => turn.id = turnId) = true := by
      simp [current, same]
    simp only [upsertReviewModeItem, known, Bool.true_or, if_true]
    exact building.upsertOwn foreign

theorem Building.change {change : ItemChange}
    (ids : ∀ id ∈ change.givenId, ∀ number, id ≠ itemId number)
    (reviews : ∀ named id, change = .review (some named) id → named = turnId) :
    Building (builder.changeItem change) shown turnId messages := by
  have pushed (item : ThreadItem) (silent : item.userContent = none) :
      Building (builder.nextItemId.2.pushItemInCurrentTurn item) shown turnId messages := by
    have added := building.numbered.push item fun id content same => by
      rw [same] at silent
      cases silent
    rw [silent, Option.toList_none, append_nil] at added
    exact added
  cases change with
  | nothing => exact building
  | push => exact pushed _ rfl
  | reasoning =>
    rw [changeItem]
    split
    · exact building
    · exact pushed _ rfl
  | upsert other id =>
    cases other with
    | none => exact building.upsertCurrent (building.foreign fun number _ => ids id rfl number)
    | some named => exact building.upsertTurn named (ids id rfl)
  | review other id =>
    have own : ∀ named ∈ other, named = turnId := by
      intro named present
      cases present
      exact reviews named id rfl
    cases id with
    | some id =>
      exact building.review other own (building.foreign fun number _ => ids id rfl number)
    | none =>
      have foreign : Foreign builder (itemId builder.nextItemIndex) :=
        building.foreign fun number inside same =>
          absurd (itemId_injective same) (Nat.ne_of_gt inside)
      exact building.numbered.review other own foreign

theorem Building.record (record : RolloutItem State) (stays : StaysInSegment record)
    (unfinished : ∀ other, record ≠ .event (.turnComplete other))
    (addressed : ∀ event, record = .event event → Addressed builderOps turnId event) :
    Building (builder.handleRolloutItem builderOps record) shown turnId
      (messages ++ (shownBy record).toList) := by
  have counted := building.counted
  have quiet : Building { builder with nextRolloutIndex := builder.nextRolloutIndex + 1 } shown
      turnId (messages ++ []) := by
    rw [append_nil]
    exact counted
  cases record with
  | event event =>
    cases event with
    | threadRolledBack | turnStarted => exact stays.elim
    | turnComplete other => exact absurd rfl (unfinished other)
    | turnAborted other => exact quiet
    | userMessage payload =>
      obtain ⟨turn, current, -, opened, -⟩ := counted.current
      have stays_open : (builder.currentTurn.any fun turn =>
          !turn.openedExplicitly && !(turn.sawCompaction && turn.items.isEmpty)) = false := by
        rw [current, Option.any_some, opened]
        rfl
      simp only [handleRolloutItem, handleEvent, handleUserMessage, stays_open]
      refine counted.numbered.push (.userMessage _ (buildUserInputs payload)) ?_
      rintro id content ⟨⟩
      exact ⟨builder.nextItemIndex, Nat.lt_succ_self _, rfl⟩
    | itemCompleted | other =>
      have changed := counted.change ((addressed _ rfl).ids builder.nextRolloutIndex)
        ((addressed _ rfl).reviews builder.nextRolloutIndex)
      rw [← append_nil messages] at changed
      exact changed
  | compacted compacted =>
    obtain ⟨turns, named, turn, current, id, opened, same, below⟩ := quiet
    refine ⟨turns, named, { turn with sawCompaction := true }, ?_, id, opened, same, below⟩
    simp only [handleRolloutItem]
    rw [current]
    rfl
  | responseItem response =>
    simp only [handleRolloutItem, handleResponseItem]
    split
    · split
      · exact counted.push (.hookPrompt _) nofun
      · exact quiet
    · exact quiet
  | _ => exact quiet

theorem Building.records
    {records : List (RolloutItem State)} (stays : ∀ record ∈ records, StaysInSegment record)
    (unfinished : ∀ other, .event (.turnComplete other) ∉ records)
    (addressed : ∀ event, .event event ∈ records → Addressed builderOps turnId event) :
    Building (records.foldl (ThreadHistoryBuilder.handleRolloutItem builderOps) builder) shown
      turnId (messages ++ records.filterMap shownBy) := by
  induction records generalizing builder messages with
  | nil =>
    rw [filterMap_nil, append_nil]
    exact building
  | cons record records ih =>
    obtain ⟨head, rest⟩ := forall_mem_cons.mp stays
    have step : Building (builder.handleRolloutItem builderOps record) shown turnId
        (messages ++ (shownBy record).toList) :=
      building.record record head (fun other same => unfinished other (same ▸ mem_cons_self))
        fun event same => addressed event (same ▸ mem_cons_self)
    have later := ih step rest (fun other member => unfinished other (mem_cons_of_mem _ member))
      fun event member => addressed event (mem_cons_of_mem _ member)
    rw [append_assoc] at later
    have joined : (shownBy record).toList ++ records.filterMap shownBy =
        (record :: records).filterMap shownBy := by
      rw [filterMap_cons]
      cases shownBy record <;> rfl
    rw [joined] at later
    exact later

end

theorem shown_of_turn (turn : MessageTurn ops) :
    turn.turn.records.filterMap shownBy =
      ((turn.message.map Prod.fst).map buildUserInputs).toList := by
  have composed : (shownBy : RolloutItem State → Option (List UserInput)) = fun record =>
      (match record with
        | .event (.userMessage event) => some event
        | _ => none).map buildUserInputs := by
    funext record
    cases record with
    | event event => cases event <;> rfl
    | _ => rfl
  calc
    _ = (turn.turn.records.filterMap fun record =>
          match record with
          | .event (.userMessage event) => some event
          | _ => none).map buildUserInputs := by
        rw [composed, map_filterMap]
    _ = _ := by
        rw [turn.events]
        cases turn.message <;> rfl

structure Idle (builder : ThreadHistoryBuilder) (shown : List (List (List UserInput))) : Prop where
  current : builder.currentTurn = none
  turns : builder.turns.map PendingTurn.userMessages = shown
  named : ∀ turn ∈ builder.turns, ∃ bound, Below bound turn

theorem Idle.turn (idle : Idle builder shown) (turn : MessageTurn ops)
    (addressed : ∀ event, .event event ∈ turn.turn.records →
      Addressed builderOps turn.turn.turnId event) :
    Idle (turn.turn.items.foldl (ThreadHistoryBuilder.handleRolloutItem builderOps) builder)
      (shown ++ [turn.shown]) := by
  have started : Building (builder.handleRolloutItem builderOps
      (.event (.turnStarted turn.turn.turnId) : RolloutItem State)) shown turn.turn.turnId [] := by
    have kept : (builder.handleRolloutItem builderOps
        (.event (.turnStarted turn.turn.turnId) : RolloutItem State)).turns = builder.turns := by
      simp [handleRolloutItem, handleEvent, handleTurnStarted, finishCurrentTurn, idle.current]
    refine ⟨kept ▸ idle.turns, kept ▸ idle.named,
      { id := turn.turn.turnId, openedExplicitly := true }, rfl, rfl, rfl, rfl, nofun⟩
  have recorded : Building (turn.turn.records.foldl
      (handleRolloutItem builderOps) (builder.handleRolloutItem builderOps
        (.event (.turnStarted turn.turn.turnId) : RolloutItem State))) shown
        turn.turn.turnId ([] ++ turn.turn.records.filterMap shownBy) :=
    started.records turn.turn.stays turn.bracketed addressed
  obtain ⟨turns, named, last, current, id, opened, messages, below⟩ := recorded
  rw [shown_of_turn] at messages
  rw [Turn.items, foldl_cons, foldl_append, foldl_cons, foldl_nil]
  generalize turn.turn.records.foldl _ _ = before at turns named current below ⊢
  have closes : before.handleRolloutItem builderOps
      (.event (.turnComplete turn.turn.turnId) : RolloutItem State) = { before with
          turns := before.turns ++ [last]
          currentTurn := none
          nextRolloutIndex := before.nextRolloutIndex + 1 } := by
    simp [handleRolloutItem, handleEvent, handleTurnComplete, current, id, finishCurrentTurn,
      opened]
  rw [closes]
  refine ⟨rfl, ?_, forall_mem_append.mpr ⟨named, forall_mem_singleton.mpr ⟨_, below⟩⟩⟩
  rw [map_append, turns, map_singleton, messages]
  rfl

theorem Idle.rolledBack (idle : Idle builder shown) (numTurns : Nat) :
    Idle (builder.handleRolloutItem builderOps
      (.event (.threadRolledBack numTurns) : RolloutItem State))
      (shown.take (shown.length - numTurns)) := by
  have kept : (if builder.turns.length ≤ numTurns then []
      else builder.turns.take (builder.turns.length - numTurns)) =
        builder.turns.take (builder.turns.length - numTurns) := by
    split
    · rename_i all
      rw [Nat.sub_eq_zero_of_le all, take_zero]
    · rfl
  refine ⟨?_, ?_, ?_⟩
  · simp [handleRolloutItem, handleEvent, handleThreadRollback, finishCurrentTurn, idle.current]
  all_goals simp only [handleRolloutItem, handleEvent, handleThreadRollback, finishCurrentTurn,
    idle.current, kept]
  · rw [map_take, ← idle.turns, length_map]
  · exact fun turn member => idle.named turn (mem_of_mem_take member)

theorem Idle.run {stack : List (MessageTurn ops)}
    (idle : Idle builder (stack.map MessageTurn.shown))
    (addressed : ∀ turn, .push turn ∈ steps → ∀ event, .event event ∈ turn.turn.records →
      Addressed builderOps turn.turn.turnId event) :
    Idle ((rolloutOf steps).foldl (ThreadHistoryBuilder.handleRolloutItem builderOps) builder)
      ((run stack steps).map MessageTurn.shown) := by
  induction steps generalizing builder stack with
  | nil => exact idle
  | cons step steps ih =>
    rw [rolloutOf, flatMap_cons, foldl_append]
    have later := fun turn member => addressed turn (mem_cons_of_mem step member)
    cases step with
    | push turn =>
      refine ih ?_ later
      rw [map_append]
      exact idle.turn turn (addressed turn mem_cons_self)
    | pop numTurns =>
      refine ih ?_ later
      have rolled : Idle (builder.handleRolloutItem builderOps
          (.event (.threadRolledBack numTurns) : RolloutItem State)) _ :=
        idle.rolledBack numTurns
      rw [map_take, ← length_map MessageTurn.shown]
      exact rolled

theorem shownMessages_eq (builderOps : BuilderOps) (steps : List (Step (MessageTurn ops)))
    (addressed : ∀ turn, .push turn ∈ steps → ∀ event, .event event ∈ turn.turn.records →
      Addressed builderOps turn.turn.turnId event) :
    shownMessages (buildTurnsFromRolloutItems builderOps (rolloutOf steps)) =
      ((survivors steps).filterMap MessageTurn.message).map fun pair => buildUserInputs pair.1 := by
  have start : Idle {} (([] : List (MessageTurn ops)).map MessageTurn.shown) := ⟨rfl, rfl, nofun⟩
  have ended : Idle ((rolloutOf steps).foldl (handleRolloutItem builderOps) {})
      ((TruncatedStack.run [] steps).map MessageTurn.shown) := start.run steps addressed
  obtain ⟨current, turns, -⟩ := ended
  rw [run_nil] at turns
  calc
    _ = (((rolloutOf steps).foldl (handleRolloutItem builderOps) {}).turns.map
          PendingTurn.userMessages).flatten := by
        rw [buildTurnsFromRolloutItems, finish, finishCurrentTurn, current]
        rfl
    _ = ((survivors steps).map MessageTurn.shown).flatten := by rw [turns]
    _ = _ := by
        induction survivors steps with
        | nil => rfl
        | cons turn rest ih =>
          rw [map_cons, flatten_cons, ih, MessageTurn.shown, filterMap_cons]
          cases turn.message <;> rfl

end

section

theorem replayItems_rolloutOf (stack : List (UserMessageEvent × ResponseItemEnvelope))
    (history : List ResponseItemEnvelope) (steps : List (Step (MessageTurn ops)))
    (held : rememberedMessages ops history = stack.map Prod.snd) :
    rememberedMessages ops (replayItems ops history (rolloutOf steps)) =
      (run stack (labelled MessageTurn.message steps)).map Prod.snd := by
  induction steps generalizing stack history with
  | nil => exact held
  | cons step steps ih =>
    cases step with
    | push turn =>
      have recorded : rememberedMessages ops (history ++ turn.turn.recorded ops) =
          stack.map Prod.snd ++ (turn.message.map Prod.snd).toList := by
        rw [rememberedMessages, filter_append, turn.instructions]
        exact congrArg (· ++ _) held
      have later : replayItems ops history (turn.turn.items ++ rolloutOf steps) =
          replayItems ops (history ++ turn.turn.recorded ops) (rolloutOf steps) :=
        replayItems_turn ops turn.turn history (rolloutOf steps)
      change rememberedMessages ops (replayItems ops history
        (turn.turn.items ++ rolloutOf steps)) = _
      rw [later, labelled]
      cases message : turn.message with
      | none =>
        rw [message, Option.map_none, Option.toList_none, append_nil] at recorded
        exact ih stack _ recorded
      | some pair =>
        rw [message] at recorded
        refine ih (stack ++ [pair]) _ ?_
        rw [recorded, map_append]
        rfl
    | pop numTurns =>
      refine ih (stack.take (stack.length - numTurns)) (dropLastNUserTurns ops numTurns history) ?_
      rw [rememberedMessages] at held ⊢
      rw [filter_dropLastNUserTurns, held, map_take, length_map]

def blocksOf : List (Block State) :=
  steps.map fun step =>
    match step with
    | .push turn => .wholeTurn turn.turn
    | .pop numTurns => .rolledBack numTurns

theorem itemsOf_blocksOf : itemsOf (blocksOf steps) = rolloutOf steps := by
  rw [itemsOf, blocksOf, flatMap_map]
  congr 1
  funext step
  cases step <;> rfl

theorem checkpointHistory_uncompacted {records : List (RolloutItem State)}
    (uncompacted : ∀ compacted, .compacted compacted ∉ records) :
    checkpointHistory ops records = none := by
  induction records with
  | nil => rfl
  | cons record records ih =>
    have rest := ih fun compacted member => uncompacted compacted (mem_cons_of_mem _ member)
    cases record with
    | compacted compacted => exact absurd mem_cons_self (uncompacted compacted)
    | _ => exact congrArg (fun found => found.or none) rest

theorem resumePoint_blocksOf : resumePoint ops (blocksOf steps) = none := by
  induction steps with
  | nil => rfl
  | cons step steps ih =>
    cases step with
    | pop numTurns => exact ih
    | push turn =>
      change (resumePoint ops (blocksOf steps)).or _ = none
      rw [ih, checkpointHistory_uncompacted turn.uncompacted]
      split <;> rfl

theorem rememberedMessages_eq :
    rememberedMessages ops (reconstructHistoryFromRollout ops (rolloutOf steps)).history =
      (survivors (labelled MessageTurn.message steps)).map Prod.snd := by
  rw [← itemsOf_blocksOf, (reconstruct_blocks ops (blocksOf steps)).1, resumedHistory,
    resumePoint_blocksOf, itemsOf_blocksOf]
  rw [replayItems_rolloutOf [] [] steps rfl, run_nil]

end

/-- Shown and remembered messages match one to one exactly if, for every turn with a user message
that the markers behind it leave shown, the turns with a user message behind it use those markers
up on their own. -/
theorem shown_remembered_iff (ops : ReplayOps State Snapshot) (builderOps : BuilderOps)
    (Matches : List UserInput → ResponseItemEnvelope → Prop) (steps : List (Step (MessageTurn ops)))
    (addressed : ∀ turn, .push turn ∈ steps → ∀ event, .event event ∈ turn.turn.records →
      Addressed builderOps turn.turn.turnId event)
    (paired : ∀ turn, .push turn ∈ steps → ∀ pair ∈ turn.message,
      Matches (buildUserInputs pair.1) pair.2) :
    Forall₂ Matches
        (shownMessages (buildTurnsFromRolloutItems builderOps (rolloutOf steps)))
        (rememberedMessages ops (reconstructHistoryFromRollout ops (rolloutOf steps)).history) ↔
      ∀ before turn after, steps = before ++ .push turn :: after → turn.message.isSome = true →
        pending after = 0 → pending (labelled MessageTurn.message after) = 0 := by
  rw [shownMessages_eq builderOps steps addressed, rememberedMessages_eq]
  change _ ↔ CountsAlike MessageTurn.message steps
  rw [← survivors_labelled_eq_iff]
  constructor
  · intro matched
    have lengths := matched.length_eq
    rw [length_map, length_map] at lengths
    exact (survivors_labelled_sublist MessageTurn.message steps).eq_of_length lengths.symm
  · intro same
    rw [same, forall₂_map_left_iff, forall₂_map_right_iff, forall₂_same]
    intro pair member
    obtain ⟨turn, survives, found⟩ := mem_filterMap.mp member
    exact paired turn (mem_of_survivors survives) pair found

def questionEvent : UserMessageEvent where
  message := ['q']
  images := []
  fileIds := []
  imageOrder := []
  localImages := []
  audio := []
  localAudio := []

def questionItem : ResponseItemEnvelope where
  item := .message .user [.inputText ['q']]
  turnId := none
  harnessAuthoredConfiguration := false
  historyTruncationTokenLimit := none

def askedTurn : MessageTurn plainOps where
  turn :=
    { turnId := ['a']
      records := [.responseItem questionItem, .event (.userMessage questionEvent),
        .event (.other none)]
      stays := by
        intro record member
        simp only [mem_cons, not_mem_nil, or_false] at member
        rcases member with rfl | rfl | rfl <;> trivial
      checkpoints := by simp }
  message := some (questionEvent, questionItem)
  events := rfl
  instructions := rfl
  user := by
    intro pair member
    cases member
    exact ⟨_, rfl⟩
  bracketed := by simp
  uncompacted := by simp

def quietTurn : MessageTurn plainOps where
  turn := ⟨['b'], [], nofun, nofun⟩
  message := none
  events := rfl
  instructions := rfl
  user := nofun
  bracketed := nofun
  uncompacted := nofun

def plainBuilder : BuilderOps where
  parseHookPromptMessage _ := none
  change _ _ := .upsert none ['c']

theorem plainBuilder_addressed (turnId : TurnId) (event : EventMsg) :
    Addressed plainBuilder turnId event where
  ids index id given number := by
    cases given
    simp [itemId]
  reviews index named id same := by cases same

theorem asked_turn_rolled_back :
    Forall₂ (fun shown remembered => shown = [.text ['q']] ∧ remembered = questionItem)
      (shownMessages (buildTurnsFromRolloutItems plainBuilder
        (rolloutOf [.push askedTurn, .push askedTurn, .pop 1])))
      (rememberedMessages plainOps (reconstructHistoryFromRollout plainOps
        (rolloutOf [.push askedTurn, .push askedTurn, .pop 1])).history) := by
  refine (shown_remembered_iff plainOps plainBuilder _ [.push askedTurn, .push askedTurn, .pop 1]
    (fun _ _ event _ => plainBuilder_addressed _ event) ?_).mpr ?_
  · intro turn member pair found
    simp only [mem_cons, reduceCtorEq, not_mem_nil, or_false, or_self] at member
    cases member
    cases found
    exact ⟨by decide, rfl⟩
  · exact (survivors_labelled_eq_iff MessageTurn.message _).mp rfl

/-- The marker takes the quiet turn from what is shown and the message from what is remembered. -/
theorem quiet_turn_rolled_back :
    shownMessages (buildTurnsFromRolloutItems plainBuilder
        (rolloutOf [.push askedTurn, .push quietTurn, .pop 1])) = [[.text ['q']]] ∧
      rememberedMessages plainOps (reconstructHistoryFromRollout plainOps
        (rolloutOf [.push askedTurn, .push quietTurn, .pop 1])).history = [] := by
  decide

end OpenInterpreter.ShownMessages
