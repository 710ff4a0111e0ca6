import OpenInterpreter.NetworkApproval

/-! What one step of an inline network approval can do. -/

namespace OpenInterpreter.NetworkTransitions

open NetworkApproval KeyedList Option Bool PendingHostApprovalOwner

namespace NetworkApprovalService

variable (service : NetworkApprovalService) (key : PendingHostApprovalKey) (pending : Nat)
  (decision : PendingApprovalDecision) (held : Bool)

@[simp] theorem releaseCommit_false : service.releaseCommit false = service := by
  simp [NetworkApprovalService.releaseCommit]

@[simp] theorem releaseCommit_true : service.releaseCommit true = service.unlockCommit := by
  simp [NetworkApprovalService.releaseCommit]

@[simp] theorem releaseCommit_frame :
    (service.releaseCommit held).sessionDeniedHosts = service.sessionDeniedHosts ∧
      (service.releaseCommit held).pendingHostApprovals = service.pendingHostApprovals ∧
      (service.releaseCommit held).created = service.created ∧
      (service.releaseCommit held).decision = service.decision := ⟨rfl, rfl, rfl, rfl⟩

@[simp] theorem removePending_frame :
    (service.removePending key pending).sessionPolicyCommitLocked =
        service.sessionPolicyCommitLocked ∧
      (service.removePending key pending).sessionDeniedHosts = service.sessionDeniedHosts ∧
      (service.removePending key pending).created = service.created ∧
      (service.removePending key pending).decision = service.decision := by
  rw [NetworkApprovalService.removePending]
  split <;> exact ⟨rfl, rfl, rfl, rfl⟩

@[simp] theorem setDecision_frame :
    (service.setDecision pending decision).sessionPolicyCommitLocked =
        service.sessionPolicyCommitLocked ∧
      (service.setDecision pending decision).sessionDeniedHosts = service.sessionDeniedHosts ∧
      (service.setDecision pending decision).created = service.created ∧
      (service.setDecision pending decision).pendingHostApprovals =
        service.pendingHostApprovals := by
  rw [NetworkApprovalService.setDecision]
  split <;> exact ⟨rfl, rfl, rfl, rfl⟩

end NetworkApprovalService

def Plain : Stage → Prop
  | .arriving _ | .attributed _ _ | .checking _ | .requesting _ | .dropped => True
  | .answered decision => decision = notAllowed
  | _ => False

theorem Plain.not_holdsCommit {stage : Stage} (plain : Plain stage) :
    stage.holdsCommit = false := by
  cases stage <;> first | rfl | exact absurd plain id

def Phase.Undecided : Phase → Prop
  | .removing _ _ | .publishing _ _ => False
  | _ => True

inductive Transition (service : NetworkApprovalService) :
    Stage → Input → NetworkApprovalService → Stage → Prop where
  | plain {source target input} (idle : Plain source) (still : Plain target) :
      Transition service source input service target
  | lockCheck (candidate) (free : service.sessionPolicyCommitLocked = false) :
      Transition service (.checking candidate) .resume
        { service with sessionPolicyCommitLocked := true } (.checkingDenied candidate)
  | passDenied (candidate) (undenied : candidate.key ∉ service.sessionDeniedHosts) :
      Transition service (.checkingDenied candidate) .resume service (.checkingApproved candidate)
  | releaseDenied {target input} (candidate) (still : Plain target) :
      Transition service (.checkingDenied candidate) input service.unlockCommit target
  | releaseApproved {target input} (candidate) (still : Plain target) :
      Transition service (.checkingApproved candidate) input service.unlockCommit target
  | checkAllowed (candidate) (approved : candidate.key ∈ service.sessionApprovedHosts) :
      Transition service (.checkingApproved candidate) .resume service.unlockCommit
        (.answered .allow)
  | join (candidate) (key : PendingHostApprovalKey) (pending) (host : key.host = candidate.key)
      (found : get key service.pendingHostApprovals = some pending) :
      Transition service (.requesting candidate) .resume service (.waiting candidate.key pending)
  | create (candidate) (owner) (fresh : get owner.key service.pendingHostApprovals = none)
      (address : owner.pending = service.created) (closed : owner.decisionOnDrop = .deny) :
      Transition service (.requesting candidate) .resume
        { service with
          pendingHostApprovals := (owner.key, service.created) :: service.pendingHostApprovals
          created := service.created + 1 } (.owning owner .reviewing)
  | createRefused (candidate) (owner) (fresh : get owner.key service.pendingHostApprovals = none)
      (address : owner.pending = service.created) (closed : owner.decisionOnDrop = .deny) :
      Transition service (.requesting candidate) .resume
        { service with
          pendingHostApprovals := (owner.key, service.created) :: service.pendingHostApprovals
          created := service.created + 1 } (.owning owner (.removing .deny (.completing false)))
  | wake (key pending decision) (decided : service.decision pending = some decision) :
      Transition service (.waiting key pending) .resume service
        (.answered decision.toNetworkDecision)
  | leave (key pending) : Transition service (.waiting key pending) .drop service .dropped
  | reviewed (owner outcome decision) :
      Transition service (.owning owner .reviewing) (.review outcome) service
        (.owning owner (.awaitingCommit decision))
  | refused (owner outcome) :
      Transition service (.owning owner .reviewing) (.review outcome) service
        (.owning owner (.removing .deny (.completing false)))
  | lockOwner (owner decision) (free : service.sessionPolicyCommitLocked = false) :
      Transition service (.owning owner (.awaitingCommit decision)) .resume
        { service with sessionPolicyCommitLocked := true } (.owning owner (.committing decision))
  | amend (owner amendment) :
      Transition service (.owning owner (.committing (.networkPolicyAmendment amendment))) .resume
        service (.owning owner (.persisting amendment .refreshing))
  | persist {input} (owner amendment stage later) (live : input ≠ .drop)
      (early : stage ≠ .appending true) (unnotified : later ≠ .appending true) :
      Transition service (.owning owner (.persisting amendment stage)) input service
        (.owning owner (.persisting amendment later))
  | finishPersist {input} (owner amendment stage) (live : input ≠ .drop) :
      Transition service (.owning owner (.persisting amendment stage)) input service
        (.owning owner (.reporting amendment.action))
  | applyProxy {input} (owner amendment stage) (live : input ≠ .drop)
      (early : stage ≠ .appending true) :
      Transition service (.owning owner (.persisting amendment stage)) input service
        (.owning (owner.policyApplied amendment.action) (.persisting amendment (.appending true)))
  | applyRule {input} (owner amendment stage) (live : input ≠ .drop)
      (early : stage ≠ .appending true) :
      Transition service (.owning owner (.persisting amendment stage)) input service
        (.owning (owner.policyApplied amendment.action) (.reporting amendment.action))
  | undo (owner) (applied : owner.decisionOnDrop = .allowForSession) :
      Transition service (.owning owner (.reporting .allow)) .resume service
        (.owning owner .undenying)
  | redo (owner) :
      Transition service (.owning owner (.reporting .deny)) .resume service
        (.owning owner .unapproving)
  | refuse (owner decision) :
      Transition service (.owning owner (.committing decision)) .resume service
        (owner.resolve .deny)
  | forgo (owner) :
      Transition service (.owning owner (.reporting .allow)) .resume service (owner.resolve .deny)
  | resolveOnce (owner decision) (undenied : owner.key.host ∉ service.sessionDeniedHosts) :
      Transition service (.owning owner (.committing decision)) .resume service
        (owner.resolve .allowOnce)
  | passSession (owner) (undenied : owner.key.host ∉ service.sessionDeniedHosts) :
      Transition service (.owning owner (.committing .approvedForSession)) .resume service
        (.owning owner .approving)
  | undeny (owner) :
      Transition service (.owning owner .undenying) .resume (service.undeny owner.key.host)
        (.owning owner .approving)
  | approve (owner) :
      Transition service (.owning owner .approving) .resume (service.approve owner.key.host)
        (owner.resolve .allowForSession)
  | unapprove (owner) :
      Transition service (.owning owner .unapproving) .resume (service.unapprove owner.key.host)
        (.owning owner .denying)
  | deny (owner) :
      Transition service (.owning owner .denying) .resume (service.deny owner.key.host)
        (owner.resolve .deny)
  | remove (owner decision ending) :
      Transition service (.owning owner (.removing decision ending)) .resume
        (service.removePending owner.key owner.pending)
        (.owning owner (.publishing decision ending))
  | publishCompleted (owner decision guarded) :
      Transition service (.owning owner (.publishing decision (.completing guarded))) .resume
        ((service.setDecision owner.pending decision).releaseCommit guarded)
        (.answered decision.toNetworkDecision)
  | publishDropped (owner decision) :
      Transition service (.owning owner (.publishing decision .dropping)) .resume
        (service.setDecision owner.pending decision) .dropped
  | dropOwner (owner phase) (undecided : Phase.Undecided phase) :
      Transition service (.owning owner phase) .drop (service.releaseCommit phase.holdsCommit)
        (.owning owner (.removing owner.decisionOnDrop .dropping))

variable {normalizeHost : String → String} {service after : NetworkApprovalService}
  {source target : Stage} {input : Input}

theorem plain_attributeRequest (calls : List ActiveNetworkApprovalCall)
    (request : NetworkPolicyRequest) : Plain (attributeRequest calls request) := by
  rw [attributeRequest]
  split
  · rfl
  · split <;> trivial

theorem plain_identify (request : NetworkPolicyRequest) (attribution : NetworkRequestAttribution)
    (turn : Option ActiveTurn) : Plain (identify request attribution turn) := by
  rw [identify]
  split <;> trivial

theorem transition_of_dropCall (dropped : dropCall service source = some (after, target)) :
    Transition service source .drop after target := by
  cases source with
  | owning owner phase =>
    cases phase with
    | removing decision ending | publishing decision ending => cases dropped
    | _ =>
      cases dropped
      exact .dropOwner owner _ trivial
  | requesting | answered | dropped => cases dropped
  | _ =>
    simp [dropCall, Stage.holdsCommit] at dropped
    obtain ⟨rfl, rfl⟩ := dropped
    first
      | exact .leave _ _
      | exact .releaseDenied _ trivial
      | exact .releaseApproved _ trivial
      | exact .plain trivial trivial

theorem transition_of_requestApproval (candidate : Candidate) :
    Transition service (.requesting candidate) .resume (requestApproval service candidate).1
      (requestApproval service candidate).2 := by
  rw [requestApproval]
  cases candidate.activeTurn with
  | none => exact .plain trivial rfl
  | some turn =>
    cases found : get (candidate.pendingKey turn) service.pendingHostApprovals with
    | some pending =>
      simp only [found]
      exact .join candidate (candidate.pendingKey turn) pending rfl found
    | none =>
      simp only [found]
      split
      · exact .create candidate ⟨_, _, _, _⟩ found rfl rfl
      · exact .createRefused candidate ⟨_, _, _, _⟩ found rfl rfl

variable (owner : PendingHostApprovalOwner)

theorem transition_of_commit (decision : ReviewDecision) :
    Transition service (.owning owner (.committing decision)) .resume service
      (owner.commit (owner.key.host ∈ service.sessionDeniedHosts) decision) := by
  have refuse : Transition service (.owning owner (.committing decision)) .resume service
      (owner.resolve .deny) := .refuse owner decision
  by_cases denied : owner.key.host ∈ service.sessionDeniedHosts
  · cases decision with
    | networkPolicyAmendment amendment => exact .amend owner amendment
    | _ => simpa [commit, denied] using refuse
  · have once : Transition service (.owning owner (.committing decision)) .resume service
        (owner.resolve .allowOnce) := .resolveOnce owner decision denied
    cases decision with
    | networkPolicyAmendment amendment => exact .amend owner amendment
    | approvedForSession =>
      simpa [commit, denied] using Transition.passSession owner denied
    | approved | approvedExecpolicyAmendment =>
      simpa [commit, denied] using once
    | _ => simpa [commit] using refuse

theorem transition_of_persist {amendment : NetworkPolicyAmendment} {stage : PersistStage}
    (persisted : persist normalizeHost owner amendment stage input = some target) :
    Transition service (.owning owner (.persisting amendment stage)) input service target := by
  cases stage with
  | refreshing =>
    cases input with
    | result ok =>
      cases persisted
      split
      · exact .persist owner amendment _ _ (by simp) (by simp) (by simp)
      · exact .finishPersist owner amendment _ (by simp)
    | _ => cases persisted
  | homing =>
    cases input with
    | proxy running =>
      cases persisted
      refine .persist owner amendment _ _ (by simp) (by simp) ?_
      split <;> simp
    | _ => cases persisted
  | updating =>
    cases input with
    | result ok =>
      cases persisted
      split
      · exact .applyProxy owner amendment _ (by simp) (by simp)
      · exact .finishPersist owner amendment _ (by simp)
    | _ => cases persisted
  | appending notified =>
    cases input with
    | result ok =>
      cases persisted
      split
      · next applies =>
        rw [and_eq_true, not_eq_true'] at applies
        exact .applyRule owner amendment _ (by simp) (by simp [applies.2])
      · exact .finishPersist owner amendment _ (by simp)
    | _ => cases persisted

theorem transition_of_reported (action : NetworkPolicyRuleAction) :
    Transition service (.owning owner (.reporting action)) .resume service
      (owner.reported action) := by
  cases action with
  | deny => exact .redo owner
  | allow =>
    by_cases applied : owner.decisionOnDrop = .allowForSession
    · simpa [reported, applied] using Transition.undo owner applied
    · simp only [reported, applied]
      exact .forgo owner

omit owner in
theorem of_lockCommit (locked : service.lockCommit = some after) :
    service.sessionPolicyCommitLocked = false ∧
      after = { service with sessionPolicyCommitLocked := true } := by
  rw [NetworkApprovalService.lockCommit] at locked
  split at locked
  · cases locked
  · next free => exact ⟨by simpa using free, (some.inj locked).symm⟩

theorem transition_of_review {outcome : ReviewOutcome}
    (advanced : advanceOwner normalizeHost service owner .reviewing (.review outcome) =
      some (after, target)) :
    Transition service (.owning owner .reviewing) (.review outcome) after target := by
  cases advanced
  cases outcome with
  | decided decision =>
    rw [reviewed]
    split
    · exact .reviewed owner _ decision
    · exact .refused owner _
  | _ => exact .refused owner _

theorem transition_of_resume (phase : Phase)
    (waits : ∀ amendment stage, phase ≠ .persisting amendment stage)
    (advanced : advanceOwner normalizeHost service owner phase .resume = some (after, target)) :
    Transition service (.owning owner phase) .resume after target := by
  cases phase with
  | persisting amendment stage => exact absurd rfl (waits amendment stage)
  | reviewing => cases advanced
  | awaitingCommit decision =>
    obtain ⟨_, locked, ⟨⟩⟩ := map_eq_some_iff.mp advanced
    obtain ⟨free, rfl⟩ := of_lockCommit locked
    exact .lockOwner owner decision free
  | committing decision =>
    cases advanced
    exact transition_of_commit owner decision
  | reporting action =>
    cases advanced
    exact transition_of_reported owner action
  | undenying =>
    cases advanced
    exact .undeny owner
  | approving =>
    cases advanced
    exact .approve owner
  | unapproving =>
    cases advanced
    exact .unapprove owner
  | denying =>
    cases advanced
    exact .deny owner
  | removing decision ending =>
    cases advanced
    exact .remove owner decision ending
  | publishing decision ending =>
    cases ending with
    | completing guarded =>
      cases advanced
      exact .publishCompleted owner decision guarded
    | dropping =>
      cases advanced
      exact .publishDropped owner decision

theorem transition_of_advanceOwner (phase : Phase)
    (advanced : advanceOwner normalizeHost service owner phase input = some (after, target)) :
    Transition service (.owning owner phase) input after target := by
  cases phase with
  | persisting amendment stage =>
    obtain ⟨_, persisted, ⟨⟩⟩ := map_eq_some_iff.mp advanced
    exact transition_of_persist owner persisted
  | reviewing =>
    cases input with
    | review outcome => exact transition_of_review owner advanced
    | _ => cases advanced
  | _ =>
    cases input with
    | resume => exact transition_of_resume owner _ (by simp) advanced
    | _ => cases advanced

theorem transition_of_advance (advanced : advance normalizeHost service source input =
    some (after, target)) : Transition service source input after target := by
  cases source with
  | owning owner phase => exact transition_of_advanceOwner owner phase advanced
  | arriving request =>
    cases input with
    | calls active =>
      cases advanced
      exact .plain trivial (plain_attributeRequest active request)
    | _ => cases advanced
  | attributed request attribution =>
    cases input with
    | turn active =>
      cases advanced
      exact .plain trivial (plain_identify request attribution active)
    | _ => cases advanced
  | checking candidate =>
    cases input with
    | resume =>
      obtain ⟨_, locked, ⟨⟩⟩ := map_eq_some_iff.mp advanced
      obtain ⟨free, rfl⟩ := of_lockCommit locked
      exact .lockCheck candidate free
    | _ => cases advanced
  | checkingDenied candidate =>
    cases input with
    | resume =>
      simp only [advance] at advanced
      split at advanced
      · cases advanced
        exact .releaseDenied candidate rfl
      · next undenied =>
        cases advanced
        exact .passDenied candidate undenied
    | _ => cases advanced
  | checkingApproved candidate =>
    cases input with
    | resume =>
      cases advanced
      split
      · next approved => exact .checkAllowed candidate approved
      · exact .releaseApproved candidate trivial
    | _ => cases advanced
  | requesting candidate =>
    cases input with
    | resume =>
      have made : Transition service (.requesting candidate) .resume
          (requestApproval service candidate).1 (requestApproval service candidate).2 :=
        transition_of_requestApproval candidate
      rwa [some.inj advanced] at made
    | _ => cases advanced
  | waiting key pending =>
    cases input with
    | resume =>
      obtain ⟨decision, decided, ⟨⟩⟩ := map_eq_some_iff.mp advanced
      exact .wake key pending decision decided
    | _ => cases advanced
  | answered | dropped => cases advanced

theorem transition_of_step (stepped : step normalizeHost service source input =
    some (after, target)) : Transition service source input after target := by
  cases input with
  | drop => exact transition_of_dropCall stepped
  | _ => exact transition_of_advance stepped

end OpenInterpreter.NetworkTransitions
