import OpenInterpreter.Interleaving
import OpenInterpreter.Json

/-! Input on its way to a turn: `core/src/session/input_queue.rs`, `session/inject.rs`,
`session/turn_input.rs` and `tasks/mod.rs`. A call is a process that steps from one lock or await to
the next. No turn is aborted or replaced: a step that would abort a turn or drop a running task is
not enabled. -/

namespace OpenInterpreter.PendingInput

structure InterAgentCommunication where
  content : String
  triggerTurn : Bool
  deriving DecidableEq

inductive TurnInput where
  | userInput (content : List String) (clientId : Option String)
  | functionCallOutput (item : String)
  | responseItem (item : String)
  | interAgentCommunication (communication : InterAgentCommunication)
  deriving DecidableEq

/-- An input in a queue. What the session has accepted is numbered in the order of acceptance, so
that equal inputs are told apart; the input that a start brings for its own turn has no ticket. -/
structure Entry where
  input : TurnInput
  ticket : Option Nat
  deriving DecidableEq

def Entry.isMail (entry : Entry) : Bool :=
  match entry.input with
  | .interAgentCommunication _ => entry.ticket.isSome
  | _ => false

def numbered (first : Nat) (inputs : List TurnInput) : List Entry :=
  inputs.mapIdx fun place input => ⟨input, some (first + place)⟩

def unnumbered (inputs : List TurnInput) : List Entry :=
  inputs.map fun input => ⟨input, none⟩

structure PendingMailboxCommunication where
  communication : InterAgentCommunication
  ticket : Nat
  deriving DecidableEq

def PendingMailboxCommunication.entry (mail : PendingMailboxCommunication) : Entry :=
  ⟨.interAgentCommunication mail.communication, some mail.ticket⟩

inductive MailboxDeliveryPhase where
  | currentTurn
  | nextTurn
  deriving DecidableEq

structure TurnState where
  pendingInput : List Entry := []
  mailboxDeliveryPhase : MailboxDeliveryPhase := .currentTurn

inductive TaskKind where
  | regular
  | review
  | compact
  deriving DecidableEq

structure RunningTask where
  subId : String
  kind : TaskKind
  finalOutputJsonSchema : Option (Json.Value Int) := none

structure ActiveTurn where
  turnState : Nat
  task : Option RunningTask := none

/-- `locked` says that a process holds the lock of `activeTurn` while it awaits. `accepted` lists what
the session has accepted, and `handed` what has gone to `run_hooks_and_record_inputs` or was
recorded. -/
structure Session where
  mailboxPendingMails : List PendingMailboxCommunication := []
  activeTurn : Option ActiveTurn := none
  locked : Bool := false
  turnStates : List TurnState := []
  accepted : List Entry := []
  handed : List Entry := []

namespace Session

def pendingInput (session : Session) (turn : Nat) : List Entry :=
  (session.turnStates[turn]?.map TurnState.pendingInput).getD []

variable (session : Session)

def activeAddress : Option Nat :=
  session.activeTurn.map ActiveTurn.turnState

variable (turn : Nat)

def modifyTurn (change : TurnState → TurnState) : Session :=
  { session with turnStates := session.turnStates.modify turn change }

def hasPendingMailboxItems : Bool := !session.mailboxPendingMails.isEmpty

def hasTriggerTurnMailboxItems : Bool :=
  session.mailboxPendingMails.any fun mail => mail.communication.triggerTurn

def enqueueMailboxCommunication (communication : InterAgentCommunication) : Session :=
  let mail : PendingMailboxCommunication := ⟨communication, session.accepted.length⟩
  { session with
    mailboxPendingMails := session.mailboxPendingMails ++ [mail]
    accepted := session.accepted ++ [mail.entry] }

def drainMailboxInputItems : List Entry × Session :=
  (session.mailboxPendingMails.map PendingMailboxCommunication.entry,
    { session with mailboxPendingMails := [] })

def extendPendingInput (input : List Entry) : Session :=
  session.modifyTurn turn fun state => { state with pendingInput := state.pendingInput ++ input }

def extendPendingInputAndAcceptMailboxDelivery (input : List Entry) : Session :=
  session.modifyTurn turn fun state =>
    ⟨state.pendingInput ++ input, .currentTurn⟩

def takePendingInput : List Entry × Session :=
  (session.pendingInput turn,
    session.modifyTurn turn fun state => { state with pendingInput := [] })

def acceptsMailboxDelivery : Bool :=
  session.turnStates[turn]?.all fun state => state.mailboxDeliveryPhase == .currentTurn

def turnStateForSubId (subId : String) : Option Nat := do
  let active ← session.activeTurn
  let task ← active.task
  guard (task.subId = subId)
  return active.turnState

/-- The rest of `defer_mailbox_delivery_to_next_turn`. -/
def deferMailboxDelivery : Session :=
  session.modifyTurn turn fun state =>
    if state.pendingInput.all fun entry =>
        match entry.input with
        | .interAgentCommunication communication => !communication.triggerTurn
        | _ => false then
      { state with mailboxDeliveryPhase := .nextTurn }
    else state

def acceptMailboxDelivery : Session :=
  session.modifyTurn turn fun state => { state with mailboxDeliveryPhase := .currentTurn }

def getOrInsert : ActiveTurn × Session :=
  match session.activeTurn with
  | some turn => (turn, session)
  | none =>
    let turn : ActiveTurn := { turnState := session.turnStates.length }
    (turn, { session with activeTurn := some turn, turnStates := session.turnStates ++ [{}] })

/-- The test before `*active = None`. -/
def isReserved : Bool :=
  session.activeTurn.any fun active => active.task.isNone && active.turnState == turn

end Session

inductive NonSteerableTurnKind where
  | review
  | compact
  deriving DecidableEq

inductive NotSubmittedReason where
  | noActiveTurn
  | expectedTurnMismatch (expected actual : String)
  | activeTurnNotSteerable (turnKind : NonSteerableTurnKind)
  | emptyInput
  | activeTurnOutputSchemaMismatch
  | notIdle
  | superseded
  | pendingTriggerTurn
  | planMode
  | serverDraining
  deriving DecidableEq

inductive SteeredInput where
  | userInput (content : List String) (clientId : Option String)
  | functionCallOutput (item : String)
  deriving DecidableEq

def SteeredInput.isEmpty : SteeredInput → Bool
  | .userInput content _ => content.isEmpty
  | .functionCallOutput _ => false

/-- `pending_turn_input` on such an input. -/
def SteeredInput.turnInput : SteeredInput → TurnInput
  | .userInput content clientId => .userInput content clientId
  | .functionCallOutput item => .functionCallOutput item

/-- `additionalContext` is what `merge_additional_context_input` leaves. -/
structure SteerRequest where
  input : SteeredInput
  additionalContext : List String
  expectedTurnId : Option String
  requiredFinalOutputJsonSchema : Option (Json.Value Int)

inductive Admission where
  | injectIfRunning (input : List String)
  | injectHookContextIfRunning (input : List String)
  | injectClientResponseItems (items : List String)
  | steerInput (request : SteerRequest)

inductive Outcome where
  | ok
  | err (input : List String)
  | notSubmitted (reason : NotSubmittedReason)
  | failed
  | started (turnId : String)

inductive Decision where
  | extend (turn : Nat) (inputs : List TurnInput) (accepts : Bool)
  | record (inputs : List TurnInput)
  | refuse (outcome : Outcome)

/-- The checks of `steer_input` on the active turn. -/
def steerRefusal (task : RunningTask) (request : SteerRequest) : Option NotSubmittedReason :=
  match request.expectedTurnId.filter (· ≠ task.subId) with
  | some expected => some (.expectedTurnMismatch expected task.subId)
  | none =>
    match task.kind with
    | .review => some (.activeTurnNotSteerable .review)
    | .compact => some (.activeTurnNotSteerable .compact)
    | .regular =>
      if request.input.isEmpty then some .emptyInput
      else
        match request.requiredFinalOutputJsonSchema with
        | none => none
        | some required =>
          if task.finalOutputJsonSchema.any fun schema => schema.eq required then none
          else some .activeTurnOutputSchemaMismatch

def steerInput (active : Option ActiveTurn) (request : SteerRequest) : Decision :=
  match active with
  | none => .refuse (.notSubmitted .noActiveTurn)
  | some turn =>
    match turn.task with
    | none => .refuse (.notSubmitted .noActiveTurn)
    | some task =>
      match steerRefusal task request with
      | some reason => .refuse (.notSubmitted reason)
      | none =>
        .extend turn.turnState
          (request.additionalContext.map .responseItem ++ [request.input.turnInput]) true

def decision (active : Option ActiveTurn) : Admission → Decision
  | .injectIfRunning input =>
    match active with
    | some turn => .extend turn.turnState (input.map .responseItem) true
    | none => .refuse (.err input)
  | .injectHookContextIfRunning input =>
    match active with
    | some turn =>
      if turn.task.isNone then .refuse (.err input)
      else .extend turn.turnState (input.map .responseItem) false
    | none => .refuse (.err input)
  | .injectClientResponseItems items =>
    match active with
    | some turn => .extend turn.turnState (items.map .responseItem) true
    | none => .record (items.map .responseItem)
  | .steerInput request => steerInput active request

/-- A start by `start_if_idle`. -/
structure IdleStart where
  task : RunningTask
  wake : RunningTask
  input : Option TurnInput

/-- Who calls `get_pending_input`. -/
inductive Drain where
  | wakeup (task : RunningTask) (turn : Nat)
  | running (task : RunningTask)

inductive Stage where
  | enqueuing (communication : InterAgentCommunication)
  -- injections and steers; `admitted` holds the lock of the active turn
  | admitting (admission : Admission)
  | admitted (turn : Nat) (inputs : List TurnInput) (accepts : Bool)
  | recording (inputs : List TurnInput)
  -- `maybe_start_turn_for_pending_work_with_sub_id`
  | waking (task : RunningTask)
  | wakingWithMail (task : RunningTask)
  | reserving (task : RunningTask)
  | refreshing (task : RunningTask) (turn : Nat)
  | refilling (task : RunningTask) (turn : Nat) (held : List Entry)
  -- `start_if_idle`
  | idle (request : IdleStart)
  | idleReserving (request : IdleStart)
  | idleReserved (request : IdleStart) (turn : Nat)
  | idlePreparing (request : IdleStart) (turn : Nat)
  | idleExtending (request : IdleStart) (turn : Nat)
  | idleClearing (turn : Nat) (wake : Option RunningTask) (outcome : Outcome)
  -- `spawn_task`
  | spawning (task : RunningTask)
  -- `start_task`
  | starting (task : RunningTask)
  | joining (task : RunningTask) (held : List Entry)
  | adding (task : RunningTask) (turn : Nat) (held : List Entry)
  | registering (task : RunningTask)
  -- `get_pending_input`; `collectingTurn` holds the lock of the active turn
  | collecting (drain : Drain)
  | collectingTurn (drain : Drain) (turn : Nat)
  | collectingMail (drain : Drain) (held : List Entry)
  -- a task
  | running (task : RunningTask)
  | handing (task : RunningTask) (held : List Entry)
  | rephasing (task : RunningTask) (turn : Nat) (defers : Bool)
  -- `on_task_finished`
  | finishing (task : RunningTask) (wake : RunningTask)
  | finished (turn : Nat) (wake : RunningTask)
  | concluding (turn : Nat) (held : List Entry) (wake : RunningTask)
  | clearing (turn : Nat) (wake : RunningTask)
  | returned (outcome : Outcome)

def Stage.held : Stage → List Entry
  | .refilling _ _ held | .joining _ held | .adding _ _ held | .collectingMail _ held
  | .handing _ held | .concluding _ held _ => held
  | _ => []

def Drain.next : Drain → List Entry → Stage
  | .wakeup task turn, held => .refilling task turn held
  | .running task, held => .handing task held

inductive Request where
  | enqueue (communication : InterAgentCommunication)
  | inject (admission : Admission)
  | maybeStartTurnForPendingWork (task : RunningTask)
  | startIfIdle (request : IdleStart)
  | spawnTask (task : RunningTask)

def start : Request → Stage
  | .enqueue communication => .enqueuing communication
  | .inject admission => .admitting admission
  | .maybeStartTurnForPendingWork task => .waking task
  | .startIfIdle request => .idle request
  | .spawnTask task => .spawning task

/-- What a step is told by the rest of the session: whether a durable sleep is outstanding, that a
start is turned down or fails, and what a running task does next. -/
inductive Input where
  | go
  | durableSleep
  | refuse (reason : NotSubmittedReason)
  | fail
  | collect
  | deferMailboxDelivery
  | acceptMailboxDelivery
  | finish (wake : RunningTask)

variable (session : Session)

def unlocked (next : Session × Stage) : Option (Session × Stage) :=
  if session.locked then none else some next

/-- `inject_*` and `steer_input` once they have the lock. -/
def atActiveTurn (admission : Admission) : Session × Stage :=
  match decision session.activeTurn admission with
  | .extend turn inputs accepts => ({ session with locked := true }, .admitted turn inputs accepts)
  | .record inputs => (session, .recording inputs)
  | .refuse outcome => (session, .returned outcome)

def extendTurn (turn : Nat) (inputs : List TurnInput) (accepts : Bool) : Session :=
  let entries := if accepts then numbered session.accepted.length inputs else unnumbered inputs
  let session := session.extendPendingInputAndAcceptMailboxDelivery turn entries
  { session with
    locked := false
    accepted := if accepts then session.accepted ++ entries else session.accepted }

def recordInputs (inputs : List TurnInput) : Session :=
  let entries := numbered session.accepted.length inputs
  { session with
    accepted := session.accepted ++ entries
    handed := session.handed ++ entries }

def reserve : Option (Nat × Session) :=
  match session.activeTurn with
  | some _ => none
  | none => some ((session.getOrInsert).1.turnState, (session.getOrInsert).2)

/-- The last section of `start_task`. -/
def register (task : RunningTask) : Option (Session × Stage) :=
  let (turn, session) := session.getOrInsert
  match turn.task with
  | some _ => none
  | none =>
    some ({ session with activeTurn := some { turn with task := some task } }, .running task)

def takeTask (wake : RunningTask) : Session × Stage :=
  match session.activeTurn with
  | none => (session, .returned .ok)
  | some turn =>
    match turn.task with
    | none => (session, .returned .ok)
    | some _ =>
      ({ session with activeTurn := some { turn with task := none } }, .finished turn.turnState wake)

/-- `get_pending_input` with the lock of the active turn. -/
def collectTurn (drain : Drain) (turn : Nat) : Session × Stage :=
  let session := { session with locked := false }
  if session.acceptsMailboxDelivery turn then
    ((session.takePendingInput turn).2, .collectingMail drain (session.takePendingInput turn).1)
  else (session, drain.next [])

def hand (held : List Entry) : Session :=
  { session with handed := session.handed ++ held }

def clearReserved (turn : Nat) : Session :=
  if session.isReserved turn then { session with activeTurn := none } else session

def step : Stage → Input → Option (Session × Stage)
  | .enqueuing communication, .go =>
    some (session.enqueueMailboxCommunication communication, .returned .ok)
  | .admitting admission, .go => unlocked session (atActiveTurn session admission)
  | .admitted turn inputs accepts, .go =>
    some (extendTurn session turn inputs accepts, .returned .ok)
  | .recording inputs, .go => some (recordInputs session inputs, .returned .ok)
  | .waking task, .go =>
    some (session, if session.hasPendingMailboxItems then .wakingWithMail task else .returned .ok)
  | .wakingWithMail task, .go =>
    some (session, if session.hasTriggerTurnMailboxItems then .reserving task else .returned .ok)
  | .wakingWithMail task, .durableSleep => some (session, .reserving task)
  | .reserving task, .go =>
    unlocked session <|
      match reserve session with
      | none => (session, .returned .ok)
      | some (turn, reserved) => (reserved, .refreshing task turn)
  | .refreshing task turn, .go =>
    unlocked session (session,
      if session.activeAddress = some turn then .collecting (.wakeup task turn) else .returned .ok)
  | .refilling task turn held, .go => some (session.extendPendingInput turn held, .starting task)
  | .idle request, .go =>
    some (session,
      if session.hasTriggerTurnMailboxItems then .returned (.notSubmitted .pendingTriggerTurn)
      else .idleReserving request)
  | .idleReserving _, .refuse reason => some (session, .returned (.notSubmitted reason))
  | .idleReserving request, .go =>
    unlocked session <|
      match reserve session with
      | none => (session, .returned (.notSubmitted .notIdle))
      | some (turn, reserved) => (reserved, .idleReserved request turn)
  | .idleReserved request turn, .go =>
    some (session,
      if session.hasTriggerTurnMailboxItems then
        .idleClearing turn (some request.wake) (.notSubmitted .pendingTriggerTurn)
      else .idlePreparing request turn)
  | .idlePreparing _ turn, .fail => some (session, .idleClearing turn none .failed)
  | .idlePreparing _ turn, .refuse reason =>
    some (session, .idleClearing turn none (.notSubmitted reason))
  | .idlePreparing request turn, .go => some (session, .idleExtending request turn)
  | .idleExtending request turn, .go =>
    some (session.extendPendingInput turn (unnumbered request.input.toList), .starting request.task)
  | .idleClearing turn wake outcome, .go =>
    unlocked session (clearReserved session turn,
      match wake with
      | some task => .waking task
      | none => .returned outcome)
  -- `abort_all_tasks(Replaced)` finds nothing to abort
  | .spawning task, .go =>
    if session.activeTurn.isSome then none else unlocked session (session, .starting task)
  | .starting task, .go =>
    some ((session.drainMailboxInputItems).2, .joining task (session.drainMailboxInputItems).1)
  | .joining task held, .go =>
    unlocked session
      ((session.getOrInsert).2, .adding task (session.getOrInsert).1.turnState held)
  | .adding task turn held, .go => some (session.extendPendingInput turn held, .registering task)
  | .registering task, .go => if session.locked then none else register session task
  | .collecting drain, .go =>
    unlocked session <|
      match session.activeTurn with
      | none => (session, .collectingMail drain [])
      | some turn => ({ session with locked := true }, .collectingTurn drain turn.turnState)
  | .collectingTurn drain turn, .go => some (collectTurn session drain turn)
  | .collectingMail drain held, .go =>
    some ((session.drainMailboxInputItems).2,
      drain.next (held ++ (session.drainMailboxInputItems).1))
  | .running task, .collect =>
    if task.kind = .regular then some (session, .collecting (.running task)) else none
  | .running task, .deferMailboxDelivery =>
    unlocked session (session,
      match session.turnStateForSubId task.subId with
      | some turn => .rephasing task turn true
      | none => .running task)
  | .running task, .acceptMailboxDelivery =>
    unlocked session (session,
      match session.turnStateForSubId task.subId with
      | some turn => .rephasing task turn false
      | none => .running task)
  | .running task, .finish wake => some (session, .finishing task wake)
  | .handing task held, .go => some (hand session held, .running task)
  | .rephasing task turn defers, .go =>
    some (if defers then session.deferMailboxDelivery turn else session.acceptMailboxDelivery turn,
      .running task)
  | .finishing _ wake, .go => unlocked session (takeTask session wake)
  | .finished turn wake, .go =>
    some ((session.takePendingInput turn).2, .concluding turn (session.takePendingInput turn).1 wake)
  | .concluding turn held wake, .go => some (hand session held, .clearing turn wake)
  | .clearing turn wake, .go =>
    unlocked session (clearReserved session turn,
      if session.isReserved turn then .waking wake else .returned .ok)
  | _, _ => none

end OpenInterpreter.PendingInput
