import Mathlib.Data.List.DropRight
import OpenInterpreter.Interleaving

/-! Blocked requests in the state of a network proxy whose configuration is updated and reloaded at
the same time: `network-proxy/src/runtime.rs`. A call is a process that steps from one lock of the
state, or one answer of the reloader, to the next. -/

namespace OpenInterpreter.BlockedTelemetry

open Interleaving List

def maxBlockedEvents : Nat := 200

def u64Max : Nat := 18446744073709551615

structure BlockedRequest where
  host : String
  executionId : Option String
  deriving DecidableEq

inductive DomainListKind where
  | allow
  | deny
  deriving DecidableEq

def DomainListKind.opposite : DomainListKind → DomainListKind
  | .allow => .deny
  | .deny => .allow

/-- Configurations, and the functions on them that the calls use. `buildConfigState` gives the
configuration of the state it builds. -/
structure Policy where
  (Config Constraints Platform Mode : Type)
  [decideConfig : DecidableEq Config]
  [decideConstraints : DecidableEq Constraints]
  [decidePlatform : DecidableEq Platform]
  normalizeHost : String → String
  entries : DomainListKind → Config → List String
  upsertDomainPermission : String → DomainListKind → Config → Config
  setMode : Mode → Config → Config
  resolvedConfig : Config → Config
  validatePolicyAgainstConstraints : Config → Constraints → Bool
  buildConfigState : Config → Constraints → Platform → Option Config

attribute [instance] Policy.decideConfig Policy.decideConstraints Policy.decidePlatform

variable (policy : Policy)

structure ConfigState where
  executorOs : policy.Platform
  config : policy.Config
  constraints : policy.Constraints
  blocked : List BlockedRequest := []
  blockedTotal : Nat := 0

inductive Call where
  | recordBlocked (executionId : Option String) (entry : BlockedRequest)
  | drainBlocked
  | updateDomainList (host : String) (target : DomainListKind)
  | setNetworkMode (mode : policy.Mode)
  | replaceConfigState (new : ConfigState policy)
  | reloadIfNeeded
  | forceReload

/-- Where a call waits: for the reloader, for the lock that installs what it loaded, for the first
lock behind `reload_if_needed`, or for the write lock after its snapshot. -/
inductive Stage where
  | reloading (call : Call policy)
  | reloaded (call : Call policy) (new : ConfigState policy)
  | ready (call : Call policy)
  | updating (host : String) (target : DomainListKind) (previous new : ConfigState policy)
  | settingMode (mode : policy.Mode) (constraints : policy.Constraints)
  | forcing
  | forced (new : ConfigState policy)
  | returned

inductive Input where
  | go
  | reload (new : Option (ConfigState policy))
  | fail

variable {policy : Policy}

def popExcess : List BlockedRequest → List BlockedRequest
  | [] => []
  | entry :: rest =>
    if maxBlockedEvents < (entry :: rest).length then popExcess rest else entry :: rest

variable (state : ConfigState policy)

def ConfigState.push (entry : BlockedRequest) : ConfigState policy :=
  { state with
    blocked := popExcess (state.blocked ++ [entry])
    blockedTotal := min (state.blockedTotal + 1) u64Max }

def ConfigState.carry (state new : ConfigState policy) : ConfigState policy :=
  { new with blocked := state.blocked, blockedTotal := state.blockedTotal }

/-- The state that `update_domain_list` builds from a snapshot; none if the host is listed already,
or the update is refused or fails. -/
def updatedState (host : String) (target : DomainListKind) : Option (ConfigState policy) :=
  let lists (kind : DomainListKind) : Bool :=
    (policy.entries kind state.config).any fun entry => policy.normalizeHost entry = host
  let candidate := policy.upsertDomainPermission host target state.config
  if lists target && !lists target.opposite then none
  else if policy.validatePolicyAgainstConstraints (policy.resolvedConfig candidate)
      state.constraints then
    (policy.buildConfigState candidate state.constraints state.executorOs).map fun config =>
      state.carry { state with config }
  else none

/-- The first lock of a call behind `reload_if_needed`. -/
def atLock : Call policy → ConfigState policy × Stage policy
  | .recordBlocked executionId entry => (state.push { entry with executionId }, .returned)
  | .drainBlocked => ({ state with blocked := [] }, .returned)
  | .replaceConfigState new => (state.carry new, .returned)
  | .updateDomainList host target =>
    match updatedState state host target with
    | some new => (state, .updating host target state new)
    | none => (state, .returned)
  | .setNetworkMode mode =>
    let resolved := policy.resolvedConfig (policy.setMode mode state.config)
    if policy.validatePolicyAgainstConstraints resolved state.constraints then
      (state, .settingMode mode state.constraints)
    else (state, .returned)
  | .reloadIfNeeded | .forceReload => (state, .returned)

def Unchanged (state previous : ConfigState policy) : Prop :=
  state.constraints = previous.constraints ∧ state.config = previous.config ∧
    state.executorOs = previous.executorOs

instance (state previous : ConfigState policy) : Decidable (Unchanged state previous) :=
  inferInstanceAs (Decidable (_ ∧ _))

def step : Stage policy → Input policy → Option (ConfigState policy × Stage policy)
  | .reloading call, .reload none => some (state, .ready call)
  | .reloading call, .reload (some new) => some (state, .reloaded call new)
  | .reloaded call new, .go => some (state.carry new, .ready call)
  | .ready call, .go => some (atLock state call)
  | .updating host target previous new, .go =>
    if Unchanged state previous then some (new, .returned)
    else some (state, .reloading (.updateDomainList host target))
  | .settingMode mode constraints, .go =>
    if state.constraints = constraints then
      some ({ state with config := policy.setMode mode state.config }, .returned)
    else some (state, .reloading (.setNetworkMode mode))
  | .forcing, .reload (some new) => some (state, .forced new)
  -- the count of the loaded state is kept
  | .forced new, .go => some ({ new with blocked := state.blocked }, .returned)
  | .reloading _, .fail | .forcing, .fail => some (state, .returned)
  | _, _ => none

def start : Call policy → Stage policy
  | .forceReload => .forcing
  | call => .reloading call

def logged (history : List (Moment (ConfigState policy) (Stage policy) (Input policy))) :
    Nat × List BlockedRequest :=
  history.foldl (fun log event =>
    match event.source with
    | .ready (.recordBlocked executionId entry) =>
      (log.1 + 1, log.2 ++ [{ entry with executionId }])
    | .ready .drainBlocked => (log.1, [])
    | _ => log) (0, [])

structure Kept (log : Nat × List BlockedRequest) : Prop where
  total : state.blockedTotal = min log.1 u64Max
  buffer : state.blocked = log.2.rtake maxBlockedEvents

/-- A domain update that writes finds the telemetry that it has copied, and a forced reload has
loaded the count that it replaces. -/
def WritesBack : Stage policy → Prop
  | .updating _ _ previous new => Unchanged state previous →
    new.blockedTotal = state.blockedTotal ∧ new.blocked = state.blocked
  | .forced new => new.blockedTotal = state.blockedTotal
  | _ => True

def SafeMove (world : World (ConfigState policy) (Stage policy) (Input policy)) :
    Move (Call policy) (Input policy) → Prop
  | .enter _ => True
  | .act index _ => ∀ stage, world.locals[index]? = some stage → WritesBack world.shared stage

theorem popExcess_eq (entries : List BlockedRequest) :
    popExcess entries = entries.rtake maxBlockedEvents := by
  induction entries with
  | nil => rfl
  | cons entry rest ih =>
    rw [popExcess, rtake]
    split
    · rename_i exceeds
      rw [ih, rtake, length_cons, Nat.succ_sub (Nat.lt_succ_iff.mp exceeds), drop_succ_cons]
    · rename_i within
      rw [Nat.sub_eq_zero_of_le (Nat.le_of_not_lt within), drop_zero]

section

variable {state new : ConfigState policy} {log : Nat × List BlockedRequest}

theorem Kept.push (kept : Kept state log) (entry : BlockedRequest) :
    Kept (state.push entry) (log.1 + 1, log.2 ++ [entry]) := by
  constructor
  · rw [ConfigState.push, kept.total]
    dsimp only
    omega
  · rw [ConfigState.push, kept.buffer, popExcess_eq]
    simp [rtake_eq_reverse_take_reverse, maxBlockedEvents, take_take]

theorem Kept.iff_same (kept : Kept state log) :
    Kept new log ↔ new.blockedTotal = state.blockedTotal ∧ new.blocked = state.blocked := by
  rw [kept.total, kept.buffer]
  exact ⟨fun same => ⟨same.total, same.buffer⟩, fun same => ⟨same.1, same.2⟩⟩

variable {history : List (Moment (ConfigState policy) (Stage policy) (Input policy))}
  {target : Stage policy} (kept : Kept state (logged history))
include kept

theorem Kept.atLock (call : Call policy) (locked : atLock state call = (new, target)) :
    Kept new (logged (history ++ [⟨state, .ready call, .go, new, target⟩])) := by
  rw [logged, foldl_append, ← logged]
  cases call with
  | recordBlocked executionId entry =>
    cases locked
    exact kept.push _
  | drainBlocked =>
    cases locked
    exact ⟨kept.total, rtake_nil _ |>.symm⟩
  | replaceConfigState | reloadIfNeeded | forceReload =>
    cases locked
    exact ⟨kept.total, kept.buffer⟩
  | updateDomainList | setNetworkMode =>
    rw [BlockedTelemetry.atLock] at locked
    split at locked <;> cases locked <;> exact kept

theorem kept_step_iff {source : Stage policy}
    {input : Input policy} (stepped : step state source input = some (new, target)) :
    Kept new (logged (history ++ [⟨state, source, input, new, target⟩])) ↔
      WritesBack state source := by
  cases source with
  | ready call =>
    cases input with
    | go => exact iff_of_true (kept.atLock call (Option.some.inj stepped)) trivial
    | _ => cases stepped
  | updating host target previous copied =>
    cases input with
    | go =>
      rw [logged, foldl_append]
      rw [step] at stepped
      split at stepped
      · rename_i unchanged
        cases stepped
        exact kept.iff_same.trans ⟨fun same _ => same, fun same => same unchanged⟩
      · rename_i changed
        cases stepped
        exact iff_of_true kept fun unchanged => absurd unchanged changed
    | _ => cases stepped
  | forced loaded =>
    cases input with
    | go =>
      rw [logged, foldl_append]
      cases stepped
      exact kept.iff_same.trans (and_iff_left rfl)
    | _ => cases stepped
  | settingMode mode constraints =>
    cases input with
    | go =>
      rw [logged, foldl_append]
      rw [step] at stepped
      split at stepped <;> cases stepped <;> exact iff_of_true ⟨kept.total, kept.buffer⟩ trivial
    | _ => cases stepped
  | reloading | reloaded | forcing | returned =>
    rw [logged, foldl_append]
    cases input with
    | reload loaded =>
      cases loaded <;> cases stepped <;> exact iff_of_true ⟨kept.total, kept.buffer⟩ trivial
    | _ => cases stepped <;> exact iff_of_true ⟨kept.total, kept.buffer⟩ trivial

end

/-- From a state without telemetry, blocked requests are kept all along a run exactly when each
domain update that writes finds the telemetry it has copied, and each forced reload the count it has
loaded. -/
theorem telemetry_kept_iff (policy : Policy) (executorOs : policy.Platform) (config : policy.Config)
    (constraints : policy.Constraints) (moves : List (Move (Call policy) (Input policy)))
    (last : World (ConfigState policy) (Stage policy) (Input policy))
    (ran : run step start { shared := { executorOs, config, constraints } } moves = some last) :
    Always step start { shared := { executorOs, config, constraints } }
        (fun world => Kept world.shared (logged world.history)) moves ↔
      EachMove step start { shared := { executorOs, config, constraints } } SafeMove moves := by
  refine always_iff_eachMove ?_ ⟨(Nat.zero_min _).symm, (rtake_nil _).symm⟩ ran
  intro _ world next_move next _ kept moved
  cases next_move with
  | enter request =>
    cases moved
    exact iff_of_true kept trivial
  | act index input =>
    obtain ⟨source, new, target, present, stepped, rfl⟩ := act_cases step start moved
    refine (kept_step_iff kept stepped).trans ?_
    simp [SafeMove, present]

def domainEntries : Policy where
  Config := List (String × DomainListKind)
  Constraints := Unit
  Platform := Unit
  Mode := Unit
  normalizeHost := id
  entries kind config := (config.filter (·.2 = kind)).map (·.1)
  upsertDomainPermission host kind config := config.filter (·.1 ≠ host) ++ [(host, kind)]
  setMode _ := id
  resolvedConfig := id
  validatePolicyAgainstConstraints _ _ := true
  buildConfigState config _ _ := some config

def built : ConfigState domainEntries := { executorOs := (), config := [], constraints := () }

def request : BlockedRequest := ⟨"blocked.example", none⟩

def recordedAfter : List (Move (Call domainEntries) (Input domainEntries)) :=
  [.enter (.updateDomainList "api.example" .allow), .act 0 (.reload none), .act 0 .go, .act 0 .go,
    .enter (.recordBlocked none request), .act 1 (.reload none), .act 1 .go]

theorem recorded_after_kept :
    Always step start { shared := built } (fun world => Kept world.shared (logged world.history))
      recordedAfter := by
  refine (telemetry_kept_iff domainEntries () [] () recordedAfter _ rfl).mpr ?_
  refine eachMove_cons.mpr ⟨trivial, ?_⟩
  rintro _ ⟨⟩
  iterate 2
    refine eachMove_cons.mpr ⟨?_, ?_⟩
    · rintro stage ⟨⟩
      trivial
    rintro _ ⟨⟩
  refine eachMove_cons.mpr ⟨?_, ?_⟩
  · rintro stage ⟨⟩
    exact fun _ => ⟨rfl, rfl⟩
  rintro _ ⟨⟩
  refine eachMove_cons.mpr ⟨trivial, ?_⟩
  rintro _ ⟨⟩
  iterate 2
    refine eachMove_cons.mpr ⟨?_, ?_⟩
    · rintro stage ⟨⟩
      trivial
    rintro _ ⟨⟩
  exact eachMove_nil

def recordedBetween : List (Move (Call domainEntries) (Input domainEntries)) :=
  [.enter (.updateDomainList "api.example" .allow), .act 0 (.reload none), .act 0 .go,
    .enter (.recordBlocked none request), .act 1 (.reload none), .act 1 .go, .act 0 .go]

def forcedAfter : List (Move (Call domainEntries) (Input domainEntries)) :=
  [.enter (.recordBlocked none request), .act 0 (.reload none), .act 0 .go,
    .enter .forceReload, .act 1 (.reload (some built)), .act 1 .go]

theorem recorded_request_lost :
    (∃ world, run step start { shared := built } recordedBetween = some world ∧
      logged world.history = (1, [request]) ∧
      world.shared.blockedTotal = 0 ∧ world.shared.blocked = []) ∧
    ∃ world, run step start { shared := built } forcedAfter = some world ∧
      logged world.history = (1, [request]) ∧
      world.shared.blockedTotal = 0 ∧ world.shared.blocked = [request] :=
  ⟨⟨_, rfl, rfl, rfl, rfl⟩, ⟨_, rfl, rfl, rfl, rfl⟩⟩

end OpenInterpreter.BlockedTelemetry
