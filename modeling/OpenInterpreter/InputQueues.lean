import OpenInterpreter.PendingInput

/-! What a step does to the queues of a session, whatever the locks, tasks and delivery phases. -/

namespace OpenInterpreter.InputQueues

open PendingInput

structure Queues where
  mailbox : List Entry
  pendings : List (List Entry)
  active : Option Nat
  accepted : List Entry
  handed : List Entry

def queues (session : Session) : Queues where
  mailbox := session.mailboxPendingMails.map PendingMailboxCommunication.entry
  pendings := session.turnStates.map TurnState.pendingInput
  active := session.activeAddress
  accepted := session.accepted
  handed := session.handed

def NoMail (inputs : List TurnInput) : Prop :=
  ∀ input ∈ inputs, ∀ communication, input ≠ .interAgentCommunication communication

/-- A change of the queues that leaves no turn behind and hands nothing over, by a process that
holds some input before and after. -/
inductive Calm (before : Queues) : List Entry → Queues → List Entry → Prop where
  | quiet {held : List Entry} : Calm before held before held
  | enqueue (mail : Entry) (isMail : mail.isMail = true)
      (ticket : mail.ticket = some before.accepted.length) :
      Calm before []
        { before with
          mailbox := before.mailbox ++ [mail]
          accepted := before.accepted ++ [mail] } []
  | accept {turn : Nat} {old : List Entry} {inputs : List TurnInput} (noMail : NoMail inputs)
      (active : before.active = some turn) (present : before.pendings[turn]? = some old) :
      Calm before []
        { before with
          pendings := before.pendings.set turn (old ++ numbered before.accepted.length inputs)
          accepted := before.accepted ++ numbered before.accepted.length inputs } []
  | bring {turn : Nat} {old : List Entry} {inputs : List TurnInput}
      (present : before.pendings[turn]? = some old) :
      Calm before []
        { before with pendings := before.pendings.set turn (old ++ unnumbered inputs) } []
  | record {inputs : List TurnInput} (noMail : NoMail inputs) :
      Calm before []
        { before with
          accepted := before.accepted ++ numbered before.accepted.length inputs
          handed := before.handed ++ numbered before.accepted.length inputs } []
  | drain {held : List Entry} :
      Calm before held { before with mailbox := [] } (held ++ before.mailbox)
  | take {turn : Nat} {old : List Entry} (present : before.pendings[turn]? = some old) :
      Calm before [] { before with pendings := before.pendings.set turn [] } old
  | reserve {held : List Entry} (idle : before.active = none) :
      Calm before held
        { before with
          active := some before.pendings.length
          pendings := before.pendings ++ [[]] } held

end OpenInterpreter.InputQueues

namespace OpenInterpreter.PendingInput.Stage

def clears : Stage → Option Nat
  | .clearing turn _ | .idleClearing turn _ _ => some turn
  | _ => none

def adds : Stage → Option Nat
  | .refilling _ turn _ | .adding _ turn _ => some turn
  | _ => none

def hands : Stage → Bool
  | .handing _ _ | .concluding _ _ _ => true
  | _ => false

def takes : Stage → Bool
  | .starting _ | .collectingTurn _ _ | .collectingMail _ _ | .finished _ _ => true
  | _ => false

end OpenInterpreter.PendingInput.Stage

namespace OpenInterpreter.InputQueues

open PendingInput Session

/-- What the step of a stage does to the queues and leaves in the hands of the process. -/
inductive Effect (session : Session) (stage : Stage) : Queues → List Entry → Prop where
  | calm {after : Queues} {held : List Entry} (clears : stage.clears = none)
      (adds : stage.adds = none) (hands : stage.hands = false)
      (holds : held = stage.held ∨ stage.takes = true)
      (change : Calm (queues session) stage.held after held) : Effect session stage after held
  | clear {turn : Nat} (clears : stage.clears = some turn) (adds : stage.adds = none)
      (hands : stage.hands = false) (empty : stage.held = [])
      (reserved : session.isReserved turn = true) :
      Effect session stage { queues session with active := none } []
  | spare {turn : Nat} (clears : stage.clears = some turn) (adds : stage.adds = none)
      (hands : stage.hands = false) (empty : stage.held = [])
      (other : session.isReserved turn = false) : Effect session stage (queues session) []
  | add {turn : Nat} {old : List Entry} (clears : stage.clears = none)
      (adds : stage.adds = some turn) (hands : stage.hands = false)
      (present : (queues session).pendings[turn]? = some old) :
      Effect session stage
        { queues session with
          pendings := (queues session).pendings.set turn (old ++ stage.held) } []
  | hand (clears : stage.clears = none) (adds : stage.adds = none) (hands : stage.hands = true) :
      Effect session stage
        { queues session with handed := (queues session).handed ++ stage.held } []

@[simp]
def turnOf : Stage → Option Nat
  | .admitted turn _ _ | .refreshing _ turn | .refilling _ turn _ | .idleReserved _ turn
  | .idlePreparing _ turn | .idleExtending _ turn | .idleClearing turn _ _ | .adding _ turn _
  | .collecting (.wakeup _ turn) | .collectingTurn (.wakeup _ turn) _
  | .collectingMail (.wakeup _ turn) _ | .rephasing _ turn _ | .finished turn _
  | .concluding turn _ _ | .clearing turn _ => some turn
  | _ => none

@[simp]
def lockOf : Stage → Option Nat
  | .admitted turn _ _ | .collectingTurn _ turn => some turn
  | _ => none

@[simp]
def incoming : Stage → List TurnInput
  | .admitted _ inputs _ | .recording inputs => inputs
  | _ => []

structure Sound (session : Session) (stage : Stage) : Prop where
  turn : ∀ turn ∈ turnOf stage, turn < session.turnStates.length
  lock : ∀ turn ∈ lockOf stage, session.locked = true ∧ session.activeAddress = some turn
  noMail : NoMail (incoming stage)

def ActiveValid (session : Session) : Prop :=
  ∀ turn ∈ session.activeAddress, turn < session.turnStates.length

structure Stepped (session : Session) (source : Stage) (after : Session) (target : Stage) :
    Prop where
  effect : Effect session source (queues after) target.held
  grows : session.turnStates.length ≤ after.turnStates.length
  active : ActiveValid after
  sound : Sound after target
  frame : session.locked = true → lockOf source = none →
    after.locked = true ∧ after.activeAddress = session.activeAddress ∧ lockOf target = none

variable {session : Session} {turn : Nat} {state : TurnState}

theorem queues_modifyTurn (change : TurnState → TurnState)
    (present : session.turnStates[turn]? = some state) :
    queues (session.modifyTurn turn change) = { queues session with
        pendings := (queues session).pendings.set turn (change state).pendingInput } := by
  simp [queues, modifyTurn, activeAddress, List.modify_eq_set_getElem?, present]

section

variable (present : session.turnStates[turn]? = some state)
include present

theorem pendings_getElem? : (queues session).pendings[turn]? = some state.pendingInput := by
  simp [queues, present]

theorem pendingInput_eq : session.pendingInput turn = state.pendingInput := by
  simp [pendingInput, present]

omit present in
theorem state_at (inside : turn < session.turnStates.length) :
    ∃ state, session.turnStates[turn]? = some state :=
  ⟨_, List.getElem?_eq_getElem inside⟩

omit present in
theorem queues_rephase (turn : Nat) {change : TurnState → TurnState}
    (same : ∀ state, (change state).pendingInput = state.pendingInput) :
    queues (session.modifyTurn turn change) = queues session := by
  cases found : session.turnStates[turn]? with
  | none =>
    simp [modifyTurn, List.modify_eq_set_getElem?, found]
  | some state =>
    rw [queues_modifyTurn change found, same]
    have present := pendings_getElem? found
    have inside := (List.getElem?_eq_some_iff.mp present)
    obtain ⟨bound, located⟩ := inside
    rw [← located, List.set_getElem_self]

omit present in
theorem length_modifyTurn (session : Session) (turn : Nat) (change : TurnState → TurnState) :
    (session.modifyTurn turn change).turnStates.length = session.turnStates.length :=
  List.length_modify ..

omit present in
theorem activeValid_modifyTurn (valid : ActiveValid session) (turn : Nat)
    (change : TurnState → TurnState) : ActiveValid (session.modifyTurn turn change) := by
  intro active found
  rw [length_modifyTurn]
  exact valid active found

omit present in
theorem queues_enqueue (session : Session) (communication : InterAgentCommunication) :
    queues (session.enqueueMailboxCommunication communication) = { queues session with
        mailbox := (queues session).mailbox ++
          [⟨.interAgentCommunication communication, some session.accepted.length⟩]
        accepted := session.accepted ++
          [⟨.interAgentCommunication communication, some session.accepted.length⟩] } := by
  simp [queues, enqueueMailboxCommunication, activeAddress, PendingMailboxCommunication.entry]

theorem queues_extend (entries : List Entry) :
    queues (session.extendPendingInput turn entries) = { queues session with
        pendings := (queues session).pendings.set turn (state.pendingInput ++ entries) } :=
  queues_modifyTurn _ present

theorem queues_take :
    queues (session.takePendingInput turn).2 =
      { queues session with pendings := (queues session).pendings.set turn [] } :=
  queues_modifyTurn _ present

theorem queues_extendTurn_accepting (inputs : List TurnInput) :
    queues (extendTurn session turn inputs true) = { queues session with
        pendings := (queues session).pendings.set turn
          (state.pendingInput ++ numbered session.accepted.length inputs)
        accepted := session.accepted ++ numbered session.accepted.length inputs } := by
  let change (state : TurnState) : TurnState :=
    ⟨state.pendingInput ++ numbered session.accepted.length inputs, .currentTurn⟩
  calc queues (extendTurn session turn inputs true)
      = { queues (session.modifyTurn turn change) with
          accepted := session.accepted ++ numbered session.accepted.length inputs } := rfl
    _ = _ := by rw [queues_modifyTurn change present]

theorem queues_extendTurn_passing (inputs : List TurnInput) :
    queues (extendTurn session turn inputs false) = { queues session with
        pendings := (queues session).pendings.set turn
          (state.pendingInput ++ unnumbered inputs) } := by
  let change (state : TurnState) : TurnState :=
    ⟨state.pendingInput ++ unnumbered inputs, .currentTurn⟩
  exact queues_modifyTurn change present

end

theorem queues_getOrInsert {session : Session} (idle : session.activeTurn = none) :
    queues (session.getOrInsert).2 = { queues session with
        active := some (queues session).pendings.length
        pendings := (queues session).pendings ++ [[]] } := by
  simp [queues, getOrInsert, idle, activeAddress]

theorem getOrInsert_active (session : Session) :
    (session.getOrInsert).2.activeTurn = some (session.getOrInsert).1 := by
  cases active : session.activeTurn <;> simp [getOrInsert, active]

theorem calm_getOrInsert (session : Session) (held : List Entry) :
    Calm (queues session) held (queues (session.getOrInsert).2) held := by
  cases active : session.activeTurn with
  | none =>
    rw [queues_getOrInsert active]
    exact .reserve (by simp [queues, activeAddress, active])
  | some turn =>
    have same : (session.getOrInsert).2 = session := by simp [getOrInsert, active]
    rw [same]
    exact .quiet

theorem length_getOrInsert (session : Session) :
    session.turnStates.length ≤ (session.getOrInsert).2.turnStates.length := by
  cases active : session.activeTurn <;> simp [getOrInsert, active]

theorem valid_getOrInsert (valid : ActiveValid session) :
    (session.getOrInsert).1.turnState < (session.getOrInsert).2.turnStates.length := by
  cases active : session.activeTurn with
  | none => simp [getOrInsert, active]
  | some turn =>
    simpa [getOrInsert, active] using valid turn.turnState
      (by simp [activeAddress, active])

theorem activeValid_getOrInsert (valid : ActiveValid session) :
    ActiveValid (session.getOrInsert).2 := by
  intro turn found
  simp only [activeAddress, getOrInsert_active, Option.map_some, Option.mem_def,
    Option.some.injEq] at found
  exact found ▸ valid_getOrInsert valid

theorem noMail_responseItems (items : List String) : NoMail (items.map .responseItem) := by
  intro input member communication
  obtain ⟨item, _, rfl⟩ := List.mem_map.mp member
  simp

theorem noMail_steer (request : SteerRequest) :
    NoMail (request.additionalContext.map .responseItem ++ [request.input.turnInput]) := by
  intro input member communication
  rcases List.mem_append.mp member with context | last
  · exact noMail_responseItems _ input context communication
  · rw [List.mem_singleton.mp last]
    cases request.input <;> simp [SteeredInput.turnInput]

def Admits (active : Option ActiveTurn) : Decision → Prop
  | .extend turn inputs _ => active.map ActiveTurn.turnState = some turn ∧ NoMail inputs
  | .record inputs => NoMail inputs
  | .refuse _ => True

theorem admits_decision (active : Option ActiveTurn) (admission : Admission) :
    Admits active (decision active admission) := by
  cases admission with
  | injectIfRunning input =>
    cases active with
    | none => trivial
    | some found => exact ⟨rfl, noMail_responseItems input⟩
  | injectHookContextIfRunning input =>
    cases active with
    | none => trivial
    | some found =>
      unfold decision
      dsimp only
      split
      · trivial
      · exact ⟨rfl, noMail_responseItems input⟩
  | injectClientResponseItems items =>
    cases active <;> simp [decision, Admits, noMail_responseItems]
  | steerInput request =>
    cases active with
    | none => trivial
    | some found =>
      cases running : found.task with
      | none => simp [decision, steerInput, running, Admits]
      | some task =>
        cases refused : steerRefusal task request <;>
          simp [decision, steerInput, running, refused, Admits, noMail_steer]

structure Plain (stage : Stage) : Prop where
  clears : stage.clears = none
  adds : stage.adds = none
  hands : stage.hands = false

structure Bare (stage : Stage) : Prop where
  lock : lockOf stage = none
  nothing : incoming stage = []

section

variable {after : Session} {source target : Stage} {inputs : List TurnInput}
  {task wake : RunningTask}

theorem turns_of_none {stage : Stage} (works : turnOf stage = none) (bound : Nat) :
    ∀ turn ∈ turnOf stage, turn < bound := by
  intro turn member
  rw [works] at member
  cases member

theorem sound_plain (turns : ∀ turn ∈ turnOf target, turn < after.turnStates.length)
    (bare : Bare target) : Sound after target := by
  refine ⟨turns, ?_, ?_⟩
  · intro turn member
    rw [bare.lock] at member
    cases member
  · rw [bare.nothing]
    exact List.forall_mem_nil _

theorem stepped_calm (plain : Plain source)
    (holds : target.held = source.held ∨ source.takes = true)
    (change : Calm (queues session) source.held (queues after) target.held)
    (grows : session.turnStates.length ≤ after.turnStates.length) (active : ActiveValid after)
    (turns : ∀ turn ∈ turnOf target, turn < after.turnStates.length) (bare : Bare target)
    (frame : session.locked = true → lockOf source = none →
      after.locked = true ∧ after.activeAddress = session.activeAddress) :
    Stepped session source after target where
  effect := .calm plain.clears plain.adds plain.hands holds change
  grows := grows
  active := active
  sound := sound_plain turns bare
  frame locked free := ⟨(frame locked free).1, (frame locked free).2, bare.lock⟩

theorem of_unlocked {next : Session × Stage}
    (stepped : unlocked session next = some (after, target)) :
    session.locked = false ∧ next = (after, target) := by
  cases held : session.locked with
  | true => simp [unlocked, held] at stepped
  | false => exact ⟨rfl, by simpa [unlocked, held] using stepped⟩

section

variable (valid : ActiveValid session)
include valid

theorem stepped_quiet (plain : Plain source) (held : target.held = source.held)
    (turns : ∀ turn ∈ turnOf target, turn < session.turnStates.length) (bare : Bare target) :
    Stepped session source session target :=
  stepped_calm plain (.inl held) (held ▸ .quiet) (Nat.le_refl _) valid turns bare
    fun locked _ => ⟨locked, rfl⟩

theorem stepped_still (plain : Plain source) (held : target.held = source.held)
    (works : turnOf target = none) (bare : Bare target) : Stepped session source session target :=
  stepped_quiet valid plain held (turns_of_none works _) bare

theorem stepped_enqueue (communication : InterAgentCommunication) (outcome : Outcome) :
    Stepped session (.enqueuing communication) (session.enqueueMailboxCommunication communication)
      (.returned outcome) := by
  refine stepped_calm ⟨rfl, rfl, rfl⟩ (.inl rfl) ?_ (Nat.le_refl _) valid (turns_of_none rfl _)
    ⟨rfl, rfl⟩ fun locked _ => ⟨locked, rfl⟩
  rw [queues_enqueue]
  exact .enqueue _ rfl rfl

theorem stepped_admit (free : session.locked = false) {admission : Admission}
    (next : atActiveTurn session admission = (after, target)) :
    Stepped session (.admitting admission) after target := by
  unfold atActiveTurn at next
  have admits := admits_decision session.activeTurn admission
  cases decided : decision session.activeTurn admission with
  | extend turn inputs accepts =>
    rw [decided] at next admits
    obtain ⟨active, noMail⟩ := admits
    cases next
    refine ⟨.calm rfl rfl rfl (.inl rfl) .quiet, Nat.le_refl _, valid, ⟨?_, ?_, noMail⟩,
      by simp [free]⟩
    · intro found member
      exact valid found (by simpa [activeAddress, active] using member)
    · intro found member
      exact ⟨rfl, member ▸ active⟩
  | record inputs =>
    rw [decided] at next admits
    cases next
    exact ⟨.calm rfl rfl rfl (.inl rfl) .quiet, Nat.le_refl _, valid,
      ⟨turns_of_none rfl _, by simp, admits⟩, by simp⟩
  | refuse outcome =>
    rw [decided] at next
    cases next
    exact stepped_still valid ⟨rfl, rfl, rfl⟩ rfl rfl ⟨rfl, rfl⟩

theorem stepped_extend {accepts : Bool} (sound : Sound session (.admitted turn inputs accepts))
    (outcome : Outcome) :
    Stepped session (.admitted turn inputs accepts) (extendTurn session turn inputs accepts)
      (.returned outcome) := by
  obtain ⟨state, present⟩ := state_at (sound.turn turn rfl)
  have active := (sound.lock turn rfl).2
  have length : (extendTurn session turn inputs accepts).turnStates.length =
      session.turnStates.length := length_modifyTurn ..
  refine stepped_calm ⟨rfl, rfl, rfl⟩ (.inl rfl) ?_ (Nat.le_of_eq length.symm)
    (activeValid_modifyTurn valid turn _) (turns_of_none rfl _) ⟨rfl, rfl⟩
    fun _ held => by simp at held
  cases accepts with
  | true =>
    rw [queues_extendTurn_accepting present]
    exact .accept sound.noMail active (pendings_getElem? present)
  | false =>
    rw [queues_extendTurn_passing present]
    exact .bring (pendings_getElem? present)

theorem stepped_record (sound : Sound session (.recording inputs)) (outcome : Outcome) :
    Stepped session (.recording inputs) (recordInputs session inputs) (.returned outcome) :=
  stepped_calm ⟨rfl, rfl, rfl⟩ (.inl rfl) (.record sound.noMail) (Nat.le_refl _) valid
    (turns_of_none rfl _) ⟨rfl, rfl⟩ fun locked _ => ⟨locked, rfl⟩

theorem stepped_reserve (free : session.locked = false) {stop : Stage} {work : Nat → Stage}
    (next : (match reserve session with
      | none => (session, stop)
      | some (turn, reserved) => (reserved, work turn)) = (after, target)) (plain : Plain source)
    (held : stop.held = source.held) (works : turnOf stop = none) (bare : Bare stop)
    (working : ∀ turn, (work turn).held = source.held ∧ turnOf (work turn) = some turn ∧
      Bare (work turn)) : Stepped session source after target := by
  unfold reserve at next
  cases active : session.activeTurn with
  | some other =>
    rw [active] at next
    cases next
    exact stepped_still valid plain held works bare
  | none =>
    rw [active] at next
    cases next
    have own := working (session.getOrInsert).1.turnState
    refine stepped_calm plain (.inl own.1) (own.1 ▸ calm_getOrInsert session _)
      (length_getOrInsert session) (activeValid_getOrInsert valid) ?_ own.2.2 (by simp [free])
    intro turn member
    rw [own.2.1, Option.mem_def, Option.some.injEq] at member
    exact member ▸ valid_getOrInsert valid

theorem stepped_bring (inside : turn < session.turnStates.length) (plain : Plain source)
    (empty : source.held = []) (released : target.held = []) (works : turnOf target = none)
    (bare : Bare target) :
    Stepped session source (session.extendPendingInput turn (unnumbered inputs)) target := by
  obtain ⟨state, present⟩ := state_at inside
  refine stepped_calm plain (.inl (released.trans empty.symm)) ?_
    (Nat.le_of_eq (length_modifyTurn ..).symm) (activeValid_modifyTurn valid turn _)
    (turns_of_none works _) bare fun locked _ => ⟨locked, rfl⟩
  rw [queues_extend present, empty, released]
  exact .bring (pendings_getElem? present)

theorem stepped_drain (plain : Plain source) (takes : source.takes = true)
    (held : target.held = source.held ++ (session.drainMailboxInputItems).1)
    (turns : ∀ turn ∈ turnOf target, turn < session.turnStates.length) (bare : Bare target) :
    Stepped session source (session.drainMailboxInputItems).2 target :=
  stepped_calm plain (.inr takes) (held ▸ .drain) (Nat.le_refl _) valid turns bare
    fun locked _ => ⟨locked, rfl⟩

theorem stepped_join (free : session.locked = false) (task : RunningTask) (held : List Entry) :
    Stepped session (.joining task held) (session.getOrInsert).2
      (.adding task (session.getOrInsert).1.turnState held) := by
  refine stepped_calm ⟨rfl, rfl, rfl⟩ (.inl rfl) (calm_getOrInsert session held)
    (length_getOrInsert session) (activeValid_getOrInsert valid) ?_ ⟨rfl, rfl⟩ (by simp [free])
  intro turn member
  simp only [turnOf, Option.mem_def, Option.some.injEq] at member
  exact member ▸ valid_getOrInsert valid

theorem stepped_add (inside : turn < session.turnStates.length) (clears : source.clears = none)
    (adds : source.adds = some turn) (hands : source.hands = false) (released : target.held = [])
    (works : turnOf target = none) (bare : Bare target) :
    Stepped session source (session.extendPendingInput turn source.held) target := by
  obtain ⟨state, present⟩ := state_at inside
  refine ⟨?_, Nat.le_of_eq (length_modifyTurn ..).symm, activeValid_modifyTurn valid turn _,
    sound_plain (turns_of_none works _) bare, fun locked _ => ⟨locked, rfl, bare.lock⟩⟩
  rw [queues_extend present, released]
  exact .add clears adds hands (pendings_getElem? present)

theorem stepped_register (free : session.locked = false)
    (registered : register session task = some (after, target)) :
    Stepped session (.registering task) after target := by
  cases busy : (session.getOrInsert).1.task with
  | some other => simp [register, busy] at registered
  | none =>
    simp only [register, busy] at registered
    obtain ⟨rfl, rfl⟩ := registered
    have address := getOrInsert_active session
    refine stepped_calm ⟨rfl, rfl, rfl⟩ (.inl rfl) ?_ (length_getOrInsert session) ?_
      (turns_of_none rfl _) ⟨rfl, rfl⟩ (by simp [free])
    · have change := calm_getOrInsert session []
      simpa [queues, activeAddress, address, Stage.held] using change
    · intro turn found
      simp only [activeAddress, Option.map_some, Option.mem_def, Option.some.injEq] at found
      exact found ▸ valid_getOrInsert valid

theorem stepped_takeTask (free : session.locked = false)
    (taken : takeTask session wake = (after, target)) :
    Stepped session (.finishing task wake) after target := by
  unfold takeTask at taken
  cases active : session.activeTurn with
  | none =>
    rw [active] at taken
    cases taken
    exact stepped_still valid ⟨rfl, rfl, rfl⟩ rfl rfl ⟨rfl, rfl⟩
  | some turn =>
    simp only [active] at taken
    cases busy : turn.task with
    | none =>
      rw [busy] at taken
      cases taken
      exact stepped_still valid ⟨rfl, rfl, rfl⟩ rfl rfl ⟨rfl, rfl⟩
    | some other =>
      rw [busy] at taken
      cases taken
      have address : session.activeAddress = some turn.turnState := by
        simp [activeAddress, active]
      refine stepped_calm ⟨rfl, rfl, rfl⟩ (.inl rfl) ?_ (Nat.le_refl _) ?_ ?_ ⟨rfl, rfl⟩
        (by simp [free])
      · have change : Calm (queues session) [] (queues session) [] := .quiet
        simpa [queues, activeAddress, active, Stage.held] using change
      · intro found member
        exact valid found (by simpa [activeAddress, active] using member)
      · intro found member
        exact valid found (by simpa [address] using member)

theorem stepped_take (sound : Sound session (.finished turn wake)) :
    Stepped session (.finished turn wake) (session.takePendingInput turn).2
      (.concluding turn (session.takePendingInput turn).1 wake) := by
  have inside := sound.turn turn rfl
  obtain ⟨state, present⟩ := state_at inside
  refine stepped_calm ⟨rfl, rfl, rfl⟩ (.inr rfl) ?_ (Nat.le_of_eq (length_modifyTurn ..).symm)
    (activeValid_modifyTurn valid turn _) ?_ ⟨rfl, rfl⟩ fun locked _ => ⟨locked, rfl⟩
  · rw [queues_take present]
    have same : (session.takePendingInput turn).1 = state.pendingInput := pendingInput_eq present
    simpa [Stage.held, same] using Calm.take (pendings_getElem? present)
  · intro found member
    simp only [turnOf, Option.mem_def, Option.some.injEq] at member
    exact member ▸ (length_modifyTurn session turn _).symm ▸ inside

theorem stepped_collect {drain : Drain} (sound : Sound session (.collectingTurn drain turn))
    (collected : collectTurn session drain turn = (after, target)) :
    Stepped session (.collectingTurn drain turn) after target := by
  have inside : turn < session.turnStates.length := valid turn (sound.lock turn rfl).2
  obtain ⟨state, present⟩ := state_at inside
  have turns : ∀ found ∈ turnOf (.collectingMail drain []), found < session.turnStates.length := by
    cases drain <;> exact sound.turn
  have unheld : session.locked = true → lockOf (.collectingTurn drain turn) = none → False :=
    fun _ held => by simp at held
  cases accepts : { session with locked := false }.acceptsMailboxDelivery turn with
  | false =>
    simp only [collectTurn, accepts] at collected
    obtain ⟨rfl, rfl⟩ := collected
    cases drain <;> exact stepped_calm ⟨rfl, rfl, rfl⟩ (.inr rfl) Calm.quiet (Nat.le_refl _) valid
      turns ⟨rfl, rfl⟩ fun locked held => (unheld locked held).elim
  | true =>
    simp only [collectTurn, accepts] at collected
    obtain ⟨rfl, rfl⟩ := collected
    have length := length_modifyTurn { session with locked := false } turn
      fun state => { state with pendingInput := [] }
    refine stepped_calm ⟨rfl, rfl, rfl⟩ (.inr rfl) ?_ (Nat.le_of_eq length.symm)
      (activeValid_modifyTurn valid turn _) (fun found member => length.symm ▸ turns found ?_)
      ⟨rfl, rfl⟩ fun locked held => (unheld locked held).elim
    · have same : session.pendingInput turn = state.pendingInput := pendingInput_eq present
      have change := Calm.take (pendings_getElem? present)
      rw [← queues_take present, ← same] at change
      exact change
    · cases drain <;> exact member

theorem stepped_hand (clears : source.clears = none) (adds : source.adds = none)
    (hands : source.hands = true) (released : target.held = [])
    (turns : ∀ turn ∈ turnOf target, turn < session.turnStates.length) (bare : Bare target) :
    Stepped session source (hand session source.held) target :=
  ⟨released ▸ .hand clears adds hands, Nat.le_refl _, valid, sound_plain turns bare,
    fun locked _ => ⟨locked, rfl, bare.lock⟩⟩

theorem stepped_rephase {defers : Bool} :
    Stepped session (.rephasing task turn defers)
      (if defers then session.deferMailboxDelivery turn else session.acceptMailboxDelivery turn)
      (.running task) := by
  have quiet : ∀ change : TurnState → TurnState,
      (∀ state, (change state).pendingInput = state.pendingInput) →
      Stepped session (.rephasing task turn defers) (session.modifyTurn turn change)
        (.running task) := by
    intro change same
    refine stepped_calm ⟨rfl, rfl, rfl⟩ (.inl rfl) ?_ (Nat.le_of_eq (length_modifyTurn ..).symm)
      (activeValid_modifyTurn valid turn _) (turns_of_none rfl _) ⟨rfl, rfl⟩
      fun locked _ => ⟨locked, rfl⟩
    rw [queues_rephase turn same]
    exact .quiet
  cases defers with
  | true =>
    refine quiet _ fun state => ?_
    split <;> rfl
  | false => exact quiet _ fun state => rfl

omit valid in
theorem turnStateForSubId_active {subId : String}
    (found : session.turnStateForSubId subId = some turn) : session.activeAddress = some turn := by
  unfold turnStateForSubId guard at found
  cases active : session.activeTurn with
  | none =>
    rw [active] at found
    exact absurd found (by simp)
  | some current =>
    rw [active] at found
    cases running : current.task with
    | none =>
      dsimp only [Option.bind_eq_bind, Option.bind_some] at found
      rw [running] at found
      exact absurd found (by simp)
    | some task =>
      dsimp only [Option.bind_eq_bind, Option.bind_some] at found
      rw [running] at found
      dsimp only [Option.bind_some] at found
      by_cases same : task.subId = subId
      · rw [if_pos same] at found
        have address : some current.turnState = some turn := found
        rw [activeAddress, active, ← address]
        rfl
      · rw [if_neg same] at found
        have nothing : none = some turn := found
        exact absurd nothing (by simp)

theorem stepped_look (task : RunningTask) (defers : Bool) :
    Stepped session (.running task) session
      (match session.turnStateForSubId task.subId with
        | some turn => .rephasing task turn defers
        | none => .running task) := by
  cases found : session.turnStateForSubId task.subId with
  | none => exact stepped_still valid ⟨rfl, rfl, rfl⟩ rfl rfl ⟨rfl, rfl⟩
  | some turn =>
    refine stepped_quiet valid ⟨rfl, rfl, rfl⟩ rfl ?_ ⟨rfl, rfl⟩
    intro own member
    simp only [turnOf, Option.mem_def, Option.some.injEq] at member
    exact valid own (member ▸ turnStateForSubId_active found)

theorem stepped_clear (free : session.locked = false) (clears : source.clears = some turn)
    (adds : source.adds = none) (hands : source.hands = false) (empty : source.held = [])
    (released : target.held = []) (works : turnOf target = none) (bare : Bare target) :
    Stepped session source (clearReserved session turn) target := by
  have sound : Sound (clearReserved session turn) target := sound_plain (turns_of_none works _) bare
  cases reserved : session.isReserved turn with
  | true =>
    have cleared : clearReserved session turn = { session with activeTurn := none } := by
      simp [clearReserved, reserved]
    rw [cleared] at sound ⊢
    refine ⟨released ▸ .clear clears adds hands empty reserved, Nat.le_refl _, ?_, sound,
      by simp [free]⟩
    simp [ActiveValid, activeAddress]
  | false =>
    have same : clearReserved session turn = session := by simp [clearReserved, reserved]
    rw [same] at sound ⊢
    exact ⟨released ▸ .spare clears adds hands empty reserved, Nat.le_refl _, valid, sound,
      by simp [free]⟩

theorem stepped_lock (free : session.locked = false) {drain : Drain}
    (sound : Sound session (.collecting drain))
    (next : (match session.activeTurn with
      | none => (session, .collectingMail drain [])
      | some turn => ({ session with locked := true }, .collectingTurn drain turn.turnState)) =
        (after, target)) : Stepped session (.collecting drain) after target := by
  have turns : ∀ found ∈ turnOf (.collectingMail drain []), found < session.turnStates.length := by
    cases drain <;> exact sound.turn
  cases active : session.activeTurn with
  | none =>
    rw [active] at next
    cases next
    exact stepped_quiet valid ⟨rfl, rfl, rfl⟩ rfl turns ⟨rfl, rfl⟩
  | some turn =>
    rw [active] at next
    cases next
    rw [← active]
    refine ⟨.calm rfl rfl rfl (.inl rfl) .quiet, Nat.le_refl _, valid, ⟨?_, ?_, by simp [NoMail]⟩,
      by simp [free]⟩
    · cases drain <;> exact turns
    · intro found member
      simp only [lockOf, Option.mem_def] at member
      exact ⟨rfl, by simp [activeAddress, active, member]⟩

theorem stepped_of_go (sound : Sound session source)
    (stepped : step session source .go = some (after, target)) :
    Stepped session source after target := by
  cases source with
  | enqueuing communication =>
    cases stepped
    exact stepped_enqueue valid communication _
  | admitting admission =>
    obtain ⟨free, next⟩ := of_unlocked stepped
    exact stepped_admit valid free next
  | admitted turn inputs accepts =>
    cases stepped
    exact stepped_extend valid sound _
  | recording inputs =>
    cases stepped
    exact stepped_record valid sound _
  | waking | wakingWithMail | idle =>
    cases stepped
    split <;> exact stepped_still valid ⟨rfl, rfl, rfl⟩ rfl rfl ⟨rfl, rfl⟩
  | reserving | idleReserving =>
    obtain ⟨free, next⟩ := of_unlocked stepped
    exact stepped_reserve valid free next ⟨rfl, rfl, rfl⟩ rfl rfl ⟨rfl, rfl⟩
      fun turn => ⟨rfl, rfl, rfl, rfl⟩
  | refreshing task turn =>
    obtain ⟨free, ⟨⟩⟩ := of_unlocked stepped
    split
    · exact stepped_quiet valid ⟨rfl, rfl, rfl⟩ rfl sound.turn ⟨rfl, rfl⟩
    · exact stepped_still valid ⟨rfl, rfl, rfl⟩ rfl rfl ⟨rfl, rfl⟩
  | refilling _ turn | adding _ turn =>
    cases stepped
    exact stepped_add valid (sound.turn turn rfl) rfl rfl rfl rfl rfl ⟨rfl, rfl⟩
  | idleReserved request turn =>
    cases stepped
    split <;> exact stepped_quiet valid ⟨rfl, rfl, rfl⟩ rfl sound.turn ⟨rfl, rfl⟩
  | idlePreparing request turn =>
    cases stepped
    exact stepped_quiet valid ⟨rfl, rfl, rfl⟩ rfl sound.turn ⟨rfl, rfl⟩
  | idleExtending request turn =>
    cases stepped
    exact stepped_bring valid (sound.turn turn rfl) ⟨rfl, rfl, rfl⟩ rfl rfl rfl ⟨rfl, rfl⟩
  | idleClearing turn wake outcome =>
    obtain ⟨free, ⟨⟩⟩ := of_unlocked stepped
    cases wake <;> exact stepped_clear valid free rfl rfl rfl rfl rfl rfl ⟨rfl, rfl⟩
  | spawning task =>
    cases busy : session.activeTurn.isSome with
    | true => simp [step, busy] at stepped
    | false =>
      simp only [step, busy] at stepped
      obtain ⟨free, ⟨⟩⟩ := of_unlocked stepped
      exact stepped_still valid ⟨rfl, rfl, rfl⟩ rfl rfl ⟨rfl, rfl⟩
  | starting task =>
    cases stepped
    exact stepped_drain valid ⟨rfl, rfl, rfl⟩ rfl rfl (turns_of_none rfl _) ⟨rfl, rfl⟩
  | joining task held =>
    obtain ⟨free, ⟨⟩⟩ := of_unlocked stepped
    exact stepped_join valid free task held
  | registering task =>
    cases locked : session.locked with
    | true => simp [step, locked] at stepped
    | false =>
      simp only [step, locked] at stepped
      exact stepped_register valid locked stepped
  | collecting drain =>
    obtain ⟨free, next⟩ := of_unlocked stepped
    exact stepped_lock valid free sound next
  | collectingTurn drain turn => exact stepped_collect valid sound (Option.some.inj stepped)
  | collectingMail drain held =>
    cases stepped
    cases drain with
    | wakeup task turn => exact stepped_drain valid ⟨rfl, rfl, rfl⟩ rfl rfl sound.turn ⟨rfl, rfl⟩
    | running task =>
      exact stepped_drain valid ⟨rfl, rfl, rfl⟩ rfl rfl (turns_of_none rfl _) ⟨rfl, rfl⟩
  | handing task held =>
    cases stepped
    exact stepped_hand valid rfl rfl rfl rfl (turns_of_none rfl _) ⟨rfl, rfl⟩
  | rephasing task turn defers =>
    cases stepped
    exact stepped_rephase valid
  | finishing task wake =>
    obtain ⟨free, next⟩ := of_unlocked stepped
    exact stepped_takeTask valid free next
  | finished turn wake =>
    cases stepped
    exact stepped_take valid sound
  | concluding turn held wake =>
    cases stepped
    exact stepped_hand valid rfl rfl rfl rfl sound.turn ⟨rfl, rfl⟩
  | clearing turn wake =>
    obtain ⟨free, ⟨⟩⟩ := of_unlocked stepped
    split <;> exact stepped_clear valid free rfl rfl rfl rfl rfl rfl ⟨rfl, rfl⟩
  | running | returned => cases stepped

theorem stepped_of_step (sound : Sound session source) {input : Input}
    (stepped : step session source input = some (after, target)) :
    Stepped session source after target := by
  cases input with
  | go => exact stepped_of_go valid sound stepped
  | durableSleep =>
    cases source with
    | wakingWithMail task =>
      cases stepped
      exact stepped_still valid ⟨rfl, rfl, rfl⟩ rfl rfl ⟨rfl, rfl⟩
    | _ => cases stepped
  | refuse reason =>
    cases source with
    | idleReserving request =>
      cases stepped
      exact stepped_still valid ⟨rfl, rfl, rfl⟩ rfl rfl ⟨rfl, rfl⟩
    | idlePreparing request turn =>
      cases stepped
      exact stepped_quiet valid ⟨rfl, rfl, rfl⟩ rfl sound.turn ⟨rfl, rfl⟩
    | _ => cases stepped
  | fail =>
    cases source with
    | idlePreparing request turn =>
      cases stepped
      exact stepped_quiet valid ⟨rfl, rfl, rfl⟩ rfl sound.turn ⟨rfl, rfl⟩
    | _ => cases stepped
  | collect =>
    cases source with
    | running task =>
      by_cases regular : task.kind = .regular
      · simp only [step, regular] at stepped
        cases stepped
        exact stepped_still valid ⟨rfl, rfl, rfl⟩ rfl rfl ⟨rfl, rfl⟩
      · simp [step, regular] at stepped
    | _ => cases stepped
  | deferMailboxDelivery =>
    cases source with
    | running task =>
      obtain ⟨free, ⟨⟩⟩ := of_unlocked stepped
      exact stepped_look valid task true
    | _ => cases stepped
  | acceptMailboxDelivery =>
    cases source with
    | running task =>
      obtain ⟨free, ⟨⟩⟩ := of_unlocked stepped
      exact stepped_look valid task false
    | _ => cases stepped
  | finish wake =>
    cases source with
    | running task =>
      cases stepped
      exact stepped_still valid ⟨rfl, rfl, rfl⟩ rfl rfl ⟨rfl, rfl⟩
    | _ => cases stepped

end

end

end OpenInterpreter.InputQueues
