import OpenInterpreter.Interleaving
import OpenInterpreter.KeyedList
import Mathlib.Data.Finset.Basic
import Mathlib.Logic.Function.Basic

/-! Inline network approvals: `core/src/tools/network_approval.rs`. One call of
`handle_inline_policy_request` is a process; it takes a step from one lock or await to the next, and
may be dropped while it awaits. What the rest of the session answers is the input of a step. -/

namespace OpenInterpreter.NetworkApproval

open KeyedList

inductive NetworkProtocol where
  | http
  | httpsConnect
  | socks5Tcp
  | socks5Udp
  deriving DecidableEq

def protocolKeyLabel : NetworkProtocol → String
  | .http => "http"
  | .httpsConnect => "https"
  | .socks5Tcp => "socks5-tcp"
  | .socks5Udp => "socks5-udp"

structure NetworkPolicyRequest where
  protocol : NetworkProtocol
  host : String
  port : UInt16
  environmentId : Option String
  executionId : Option String

structure HostApprovalKey where
  environmentId : String
  host : String
  protocol : String
  port : UInt16
  deriving DecidableEq

structure PendingHostApprovalKey where
  host : HostApprovalKey
  turnId : String
  executionId : Option String
  deriving DecidableEq

def HostApprovalKey.fromRequest (request : NetworkPolicyRequest) (environmentId : String) :
    HostApprovalKey where
  environmentId := environmentId
  host := String.ofList (request.host.toList.map Char.toLower)
  protocol := protocolKeyLabel request.protocol
  port := request.port

inductive NetworkDecision where
  | allow
  | deny (reason : String)
  deriving DecidableEq

def notAllowed : NetworkDecision := .deny "not_allowed"

inductive PendingApprovalDecision where
  | allowOnce
  | allowForSession
  | deny
  deriving DecidableEq

def PendingApprovalDecision.toNetworkDecision : PendingApprovalDecision → NetworkDecision
  | .allowOnce | .allowForSession => .allow
  | .deny => notAllowed

inductive PermissionProfile where
  | managed
  | disabled
  | external
  deriving DecidableEq

structure ActiveNetworkApprovalCall where
  registrationId : String
  turnId : String
  environmentId : String
  permissionProfile : PermissionProfile
  cancelled : Bool

structure NetworkRequestAttribution where
  ownerCall : Option ActiveNetworkApprovalCall
  environmentId : Option String

/-- With `resolve_active_call_attribution`. -/
def resolveRequestAttribution (activeCalls : List ActiveNetworkApprovalCall)
    (request : NetworkPolicyRequest) : Option NetworkRequestAttribution :=
  match request.executionId with
  | some executionId => do
      let call ← activeCalls.find? (·.registrationId = executionId)
      let environmentId := request.environmentId.getD call.environmentId
      if call.environmentId = environmentId then
        some ⟨some call, some environmentId⟩
      else none
  | none =>
    match request.environmentId, activeCalls with
    | some environmentId, [call] =>
      some ⟨if call.environmentId = environmentId then some call else none, some environmentId⟩
    | some environmentId, _ => some ⟨none, some environmentId⟩
    | none, [] => some ⟨none, none⟩
    | none, [call] => some ⟨some call, some call.environmentId⟩
    | none, _ => none

inductive AskForApproval where
  | unlessTrusted
  | onRequest
  | granular
  | never
  deriving DecidableEq

structure TurnEnvironment where
  environmentId : String
  permissionProfile : PermissionProfile

structure ActiveTurn where
  subId : String
  environments : List TurnEnvironment
  approvalPolicy : AskForApproval

structure Candidate where
  key : HostApprovalKey
  requestHost : String
  ownerCall : Option ActiveNetworkApprovalCall
  activeTurn : Option ActiveTurn

def permissionProfileAllowsNetworkApprovalFlow (profile : PermissionProfile) : Bool :=
  profile = .managed

def allowsNetworkApprovalFlow (policy : AskForApproval) : Bool :=
  policy ≠ .never

def Candidate.reviewable (candidate : Candidate) (turn : ActiveTurn) : Bool :=
  let profile := (candidate.ownerCall.map (·.permissionProfile)).or
    ((turn.environments.find? (·.environmentId = candidate.key.environmentId)).map
      (·.permissionProfile))
  profile.any permissionProfileAllowsNetworkApprovalFlow &&
    allowsNetworkApprovalFlow turn.approvalPolicy

def Candidate.pendingKey (candidate : Candidate) (turn : ActiveTurn) : PendingHostApprovalKey where
  host := candidate.key
  turnId := (candidate.ownerCall.map (·.turnId)).getD turn.subId
  executionId := candidate.ownerCall.map (·.registrationId)

/-- The state the calls share. A pending approval is its address; `created` is the next one. -/
structure NetworkApprovalService where
  sessionPolicyCommitLocked : Bool := false
  sessionApprovedHosts : Finset HostApprovalKey := ∅
  sessionDeniedHosts : Finset HostApprovalKey := ∅
  pendingHostApprovals : List (PendingHostApprovalKey × Nat) := []
  created : Nat := 0
  decision : Nat → Option PendingApprovalDecision := fun _ => none

namespace NetworkApprovalService

variable (service : NetworkApprovalService)

def lockCommit : Option NetworkApprovalService :=
  if service.sessionPolicyCommitLocked then none
  else some { service with sessionPolicyCommitLocked := true }

@[simp] def unlockCommit (service : NetworkApprovalService) : NetworkApprovalService :=
  { service with sessionPolicyCommitLocked := false }

def releaseCommit (held : Bool) : NetworkApprovalService :=
  { service with sessionPolicyCommitLocked := service.sessionPolicyCommitLocked && !held }

@[simp] def approve (service : NetworkApprovalService) (key : HostApprovalKey) :
    NetworkApprovalService :=
  { service with sessionApprovedHosts := insert key service.sessionApprovedHosts }

@[simp] def unapprove (service : NetworkApprovalService) (key : HostApprovalKey) :
    NetworkApprovalService :=
  { service with sessionApprovedHosts := service.sessionApprovedHosts.erase key }

@[simp] def deny (service : NetworkApprovalService) (key : HostApprovalKey) :
    NetworkApprovalService :=
  { service with sessionDeniedHosts := insert key service.sessionDeniedHosts }

@[simp] def undeny (service : NetworkApprovalService) (key : HostApprovalKey) :
    NetworkApprovalService :=
  { service with sessionDeniedHosts := service.sessionDeniedHosts.erase key }

def setDecision (pending : Nat) (decision : PendingApprovalDecision) : NetworkApprovalService :=
  if service.decision pending = none then
    { service with decision := Function.update service.decision pending (some decision) }
  else service

/-- The removal of `publish_and_remove`. -/
def removePending (key : PendingHostApprovalKey) (pending : Nat) : NetworkApprovalService :=
  if get key service.pendingHostApprovals = some pending then
    { service with pendingHostApprovals := remove key service.pendingHostApprovals }
  else service

end NetworkApprovalService

inductive NetworkPolicyRuleAction where
  | allow
  | deny
  deriving DecidableEq

structure NetworkPolicyAmendment where
  host : String
  action : NetworkPolicyRuleAction

inductive ReviewDecision where
  | approved
  | approvedExecpolicyAmendment
  | approvedForSession
  | approvedMcpPolicyAmendment
  | networkPolicyAmendment (amendment : NetworkPolicyAmendment)
  | denied
  | timedOut
  | abort

def ReviewDecision.commits : ReviewDecision → Bool
  | .approved | .approvedExecpolicyAmendment | .approvedForSession
  | .networkPolicyAmendment _ => true
  | .approvedMcpPolicyAmendment | .denied | .timedOut | .abort => false

inductive ReviewOutcome where
  | decided (decision : ReviewDecision)
  | rejected
  | failed
  | cancelled

/-- Where `persist_network_policy_amendment` awaits. -/
inductive PersistStage where
  | refreshing
  | homing
  | updating
  | appending (notified : Bool)
  deriving DecidableEq

structure PendingHostApprovalOwner where
  key : PendingHostApprovalKey
  requestHost : String
  pending : Nat
  decisionOnDrop : PendingApprovalDecision := .deny

inductive Ending where
  | completing (guarded : Bool)
  | dropping
  deriving DecidableEq

inductive Phase where
  | reviewing
  | awaitingCommit (decision : ReviewDecision)
  | committing (decision : ReviewDecision)
  | persisting (amendment : NetworkPolicyAmendment) (stage : PersistStage)
  | reporting (action : NetworkPolicyRuleAction)
  | undenying
  | approving
  | unapproving
  | denying
  | removing (decision : PendingApprovalDecision) (ending : Ending)
  | publishing (decision : PendingApprovalDecision) (ending : Ending)

inductive Stage where
  | arriving (request : NetworkPolicyRequest)
  | attributed (request : NetworkPolicyRequest) (attribution : NetworkRequestAttribution)
  | checking (candidate : Candidate)
  | checkingDenied (candidate : Candidate)
  | checkingApproved (candidate : Candidate)
  | requesting (candidate : Candidate)
  | waiting (key : HostApprovalKey) (pending : Nat)
  | owning (owner : PendingHostApprovalOwner) (phase : Phase)
  | answered (decision : NetworkDecision)
  | dropped

inductive Input where
  | calls (activeCalls : List ActiveNetworkApprovalCall)
  | turn (activeTurn : Option ActiveTurn)
  | review (outcome : ReviewOutcome)
  | proxy (running : Bool)
  | result (ok : Bool)
  | resume
  | drop

def Phase.holdsCommit : Phase → Bool
  | .reviewing | .awaitingCommit _ => false
  | .committing _ | .persisting _ _ | .reporting _ | .undenying | .approving | .unapproving
  | .denying => true
  | .removing _ ending | .publishing _ ending => ending = .completing true

def Stage.holdsCommit : Stage → Bool
  | .checkingDenied _ | .checkingApproved _ => true
  | .owning _ phase => phase.holdsCommit
  | _ => false

def attributeRequest (activeCalls : List ActiveNetworkApprovalCall) (request : NetworkPolicyRequest) :
    Stage :=
  match resolveRequestAttribution activeCalls request with
  | none => .answered notAllowed
  | some attribution =>
    if attribution.ownerCall.any (·.cancelled) then .answered notAllowed
    else .attributed request attribution

def identify (request : NetworkPolicyRequest) (attribution : NetworkRequestAttribution)
    (turn : Option ActiveTurn) : Stage :=
  match attribution.environmentId.or
      (turn.bind fun turn => turn.environments.head?.map (·.environmentId)) with
  | none => .answered notAllowed
  | some environmentId =>
    .checking ⟨.fromRequest request environmentId, request.host, attribution.ownerCall, turn⟩

/-- `get_or_create_pending_approval`, and the checks of the owner it makes. -/
def requestApproval (service : NetworkApprovalService) (candidate : Candidate) :
    NetworkApprovalService × Stage :=
  match candidate.activeTurn with
  | none => (service, .answered notAllowed)
  | some turn =>
    let key := candidate.pendingKey turn
    match get key service.pendingHostApprovals with
    | some pending => (service, .waiting candidate.key pending)
    | none =>
      ({ service with
          pendingHostApprovals := (key, service.created) :: service.pendingHostApprovals
          created := service.created + 1 },
        .owning { key, requestHost := candidate.requestHost, pending := service.created }
          (if candidate.reviewable turn then .reviewing
          else .removing .deny (.completing false)))

namespace PendingHostApprovalOwner

variable (owner : PendingHostApprovalOwner)

/-- `set_decision_on_drop(resolved)` and the start of `complete(resolved)`. -/
def resolve (resolved : PendingApprovalDecision) : Stage :=
  .owning { owner with decisionOnDrop := resolved } (.removing resolved (.completing true))

def policyApplied (action : NetworkPolicyRuleAction) : PendingHostApprovalOwner :=
  { owner with
    decisionOnDrop := match action with
      | .allow => .allowForSession
      | .deny => .deny }

def reviewed : ReviewOutcome → Stage
  | .decided decision =>
    if decision.commits then .owning owner (.awaitingCommit decision)
    else .owning owner (.removing .deny (.completing false))
  | .rejected | .failed | .cancelled => .owning owner (.removing .deny (.completing false))

def commit (denied : Bool) : ReviewDecision → Stage
  | .approved | .approvedExecpolicyAmendment =>
    owner.resolve (if denied then .deny else .allowOnce)
  | .approvedForSession =>
    if denied then owner.resolve .deny else .owning owner .approving
  | .networkPolicyAmendment amendment => .owning owner (.persisting amendment .refreshing)
  | .approvedMcpPolicyAmendment | .denied | .timedOut | .abort => owner.resolve .deny

def reported : NetworkPolicyRuleAction → Stage
  | .allow =>
    if owner.decisionOnDrop = .allowForSession then .owning owner .undenying
    else owner.resolve .deny
  | .deny => .owning owner .unapproving

end PendingHostApprovalOwner

section

variable (normalizeHost : String → String) (service : NetworkApprovalService)

def persist (owner : PendingHostApprovalOwner) (amendment : NetworkPolicyAmendment) :
    PersistStage → Input → Option Stage
  | .refreshing, .result ok =>
    some (.owning owner
      (if ok && normalizeHost amendment.host = normalizeHost owner.requestHost then
        .persisting amendment .homing
      else .reporting amendment.action))
  | .homing, .proxy running =>
    some (.owning owner (.persisting amendment (if running then .updating else .appending false)))
  | .updating, .result ok =>
    some (if ok then
      .owning (owner.policyApplied amendment.action) (.persisting amendment (.appending true))
    else .owning owner (.reporting amendment.action))
  | .appending notified, .result ok =>
    some (.owning (if ok && !notified then owner.policyApplied amendment.action else owner)
      (.reporting amendment.action))
  | _, _ => none

def advanceOwner (owner : PendingHostApprovalOwner) :
    Phase → Input → Option (NetworkApprovalService × Stage)
  | .reviewing, .review outcome => some (service, owner.reviewed outcome)
  | .awaitingCommit decision, .resume =>
    service.lockCommit.map fun service => (service, .owning owner (.committing decision))
  | .committing decision, .resume =>
    some (service, owner.commit (owner.key.host ∈ service.sessionDeniedHosts) decision)
  | .persisting amendment stage, input =>
    (persist normalizeHost owner amendment stage input).map fun stage => (service, stage)
  | .reporting action, .resume => some (service, owner.reported action)
  | .undenying, .resume => some (service.undeny owner.key.host, .owning owner .approving)
  | .approving, .resume => some (service.approve owner.key.host, owner.resolve .allowForSession)
  | .unapproving, .resume => some (service.unapprove owner.key.host, .owning owner .denying)
  | .denying, .resume => some (service.deny owner.key.host, owner.resolve .deny)
  | .removing decision ending, .resume =>
    some (service.removePending owner.key owner.pending,
      .owning owner (.publishing decision ending))
  | .publishing decision ending, .resume =>
    let service := service.setDecision owner.pending decision
    some (match ending with
      | .completing guarded =>
        (service.releaseCommit guarded, .answered decision.toNetworkDecision)
      | .dropping => (service, .dropped))
  | _, _ => none

/-- The drop of a call that awaits: the commit guard goes first, the owner publishes after it. -/
def dropCall (stage : Stage) : Option (NetworkApprovalService × Stage) :=
  let released := service.releaseCommit stage.holdsCommit
  match stage with
  | .requesting _ | .answered _ | .dropped
  | .owning _ (.removing _ _) | .owning _ (.publishing _ _) => none
  | .owning owner _ => some (released, .owning owner (.removing owner.decisionOnDrop .dropping))
  | .arriving _ | .attributed _ _ | .checking _ | .checkingDenied _ | .checkingApproved _
  | .waiting _ _ => some (released, .dropped)

/-- One step of `handle_inline_policy_request`. -/
def advance : Stage → Input → Option (NetworkApprovalService × Stage)
  | .arriving request, .calls activeCalls => some (service, attributeRequest activeCalls request)
  | .attributed request attribution, .turn turn =>
    some (service, identify request attribution turn)
  | .checking candidate, .resume =>
    service.lockCommit.map fun service => (service, .checkingDenied candidate)
  | .checkingDenied candidate, .resume =>
    some (if candidate.key ∈ service.sessionDeniedHosts then
      (service.unlockCommit, .answered notAllowed)
    else (service, .checkingApproved candidate))
  | .checkingApproved candidate, .resume =>
    some (service.unlockCommit,
      if candidate.key ∈ service.sessionApprovedHosts then .answered .allow
      else .requesting candidate)
  | .requesting candidate, .resume => some (requestApproval service candidate)
  | .waiting _ pending, .resume =>
    (service.decision pending).map fun decision =>
      (service, .answered decision.toNetworkDecision)
  | .owning owner phase, input => advanceOwner normalizeHost service owner phase input
  | _, _ => none

def step (stage : Stage) : Input → Option (NetworkApprovalService × Stage)
  | .drop => dropCall service stage
  | input => advance normalizeHost service stage input

end

end OpenInterpreter.NetworkApproval
