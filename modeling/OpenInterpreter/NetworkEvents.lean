import OpenInterpreter.NetworkTransitions
import Mathlib.Tactic

/-! The steps of inline approvals as events, and what an event changes. -/

namespace OpenInterpreter.NetworkEvents

open NetworkApproval NetworkTransitions Interleaving KeyedList List PendingHostApprovalOwner Stage
open NetworkApprovalService

abbrev Event := Moment NetworkApprovalService Stage Input

variable (key : HostApprovalKey)

def ChecksAllowed (event : Event) : Prop :=
  ∃ candidate, event.source = .checkingApproved candidate ∧ candidate.key = key ∧
    event.target = .answered .allow

def ResolvesAllow (pending : Nat) (event : Event) : Prop :=
  ∃ owner phase resolved, event.source = .owning owner phase ∧ owner.key.host = key ∧
    owner.pending = pending ∧ resolved ≠ PendingApprovalDecision.deny ∧
    event.target = owner.resolve resolved

def AppliesAllow (pending : Nat) (event : Event) : Prop :=
  ∃ owner amendment stage next phase, event.source = .owning owner (.persisting amendment stage) ∧
    owner.key.host = key ∧ owner.pending = pending ∧ owner.decisionOnDrop ≠ .allowForSession ∧
    event.target = .owning next phase ∧ next.decisionOnDrop = .allowForSession

def DecidesAllow (pending : Nat) (event : Event) : Prop :=
  event.source.holdsCommit ∧ event.before.sessionPolicyCommitLocked ∧
    (ResolvesAllow key pending event ∧ key ∉ event.before.sessionDeniedHosts ∨
      AppliesAllow key pending event)

def EntersDenied (event : Event) : Prop :=
  ∃ owner, event.source = .owning owner .denying ∧ owner.key.host = key ∧ event.input = .resume

/-- A Deny amendment has entered the denied set and no Allow amendment was applied since. -/
def DenialStands (history : List Event) : Prop :=
  ∃ earlier event later, history = earlier ++ event :: later ∧ EntersDenied key event ∧
    ∀ since ∈ later, ∀ pending, ¬ AppliesAllow key pending since

def BelongsTo (pending : Nat) (stage : Stage) : Prop :=
  stage = .waiting key pending ∨
    ∃ owner phase, stage = .owning owner phase ∧ owner.key.host = key ∧ owner.pending = pending

section Effects

variable {service after : NetworkApprovalService} {source target : Stage} {input : Input}

def PastCheck : Stage → Prop
  | .checkingApproved candidate => candidate.key = key
  | .owning owner .undenying | .owning owner .approving => owner.key.host = key
  | .owning owner (.persisting _ _) | .owning owner (.reporting _) =>
    owner.key.host = key ∧ owner.decisionOnDrop = .allowForSession
  | _ => False

variable (transition : Transition service source input after target)
include transition

theorem locked_kept
    (free : source.holdsCommit = false) (locked : service.sessionPolicyCommitLocked = true) :
    after.sessionPolicyCommitLocked = true := by
  cases transition <;> simp_all [holdsCommit, Phase.holdsCommit]

theorem lock_held (held : source.holdsCommit = true → service.sessionPolicyCommitLocked = true)
    (holds : target.holdsCommit = true) : after.sessionPolicyCommitLocked = true := by
  cases transition with
  | plain idle still | releaseDenied candidate still | releaseApproved candidate still =>
    simp [still.not_holdsCommit] at holds
  | _ =>
    simp_all [holdsCommit, Phase.holdsCommit]

theorem lock_taken (holds : target.holdsCommit = true) :
    source.holdsCommit = true ∨ service.sessionPolicyCommitLocked = false := by
  cases transition with
  | plain idle still | releaseDenied candidate still | releaseApproved candidate still =>
    simp [still.not_holdsCommit] at holds
  | _ => simp_all [holdsCommit, Phase.holdsCommit]

theorem denied_kept (free : source.holdsCommit = false) :
    after.sessionDeniedHosts = service.sessionDeniedHosts := by
  cases transition <;> simp_all [holdsCommit, Phase.holdsCommit]

variable {key : HostApprovalKey} {owner : PendingHostApprovalOwner} {phase : Phase} {pending : Nat}
    {decision : PendingApprovalDecision} {ending : Ending}

theorem undenied_by (denied : key ∈ service.sessionDeniedHosts)
    (undenied : key ∉ after.sessionDeniedHosts) : PastCheck key source := by
  cases transition <;> simp_all [PastCheck]

theorem entersDenied_spec (enters : EntersDenied key ⟨service, source, input, after, target⟩) :
    key ∈ after.sessionDeniedHosts ∧ source.holdsCommit = true ∧
      ∀ other, ¬ PastCheck other target := by
  obtain ⟨owner, was, host, resumes⟩ := enters
  cases transition <;>
    simp_all [holdsCommit, Phase.holdsCommit, PastCheck, resolve, Plain]

omit transition in
theorem Plain.not_pastCheck {stage : Stage} (plain : Plain stage) (key : HostApprovalKey) :
    ¬ PastCheck key stage := by
  cases stage <;> first | exact id | exact absurd plain id

theorem pastCheck_of_target
    (closed : ∀ owner decision, source = .owning owner (.committing decision) →
      owner.decisionOnDrop = .deny) (past : PastCheck key target) :
    PastCheck key source ∨ key ∉ service.sessionDeniedHosts ∨
      ∃ pending, AppliesAllow key pending ⟨service, source, input, after, target⟩ := by
  cases transition with
  | plain idle still | releaseDenied candidate still | releaseApproved candidate still =>
    exact absurd past (Plain.not_pastCheck still key)
  | applyProxy owner amendment stage | applyRule owner amendment stage =>
    by_cases already : owner.decisionOnDrop = .allowForSession
    · exact .inl ⟨past.1, already⟩
    · exact .inr (.inr ⟨_, owner, amendment, stage, _, _, rfl, past.1, rfl, already, rfl, past.2⟩)
  | amend owner amendment =>
    have denies := closed owner _ rfl
    have allows : owner.decisionOnDrop = .allowForSession := past.2
    rw [denies] at allows
    cases allows
  | _ => simp_all [PastCheck, resolve]

omit transition in
theorem PastCheck.holdsCommit {stage : Stage} (past : PastCheck key stage) :
    stage.holdsCommit = true := by
  cases stage with
  | owning owner phase => cases phase <;> first | rfl | exact absurd past id
  | _ => first | rfl | exact absurd past id

variable {next : PendingHostApprovalOwner}

omit transition in
theorem phase_of_resolve {resolved : PendingApprovalDecision}
    (same : Stage.owning next phase = owner.resolve resolved) :
    phase = .removing resolved (.completing true) := by
  rw [resolve, owning.injEq] at same
  exact same.2

theorem resolvesAllow_spec
    (resolves : ResolvesAllow key pending ⟨service, source, input, after, target⟩) :
    source.holdsCommit = true ∧ (key ∉ service.sessionDeniedHosts ∨
      ∃ owner, source = .owning owner .approving ∧ owner.key.host = key) := by
  obtain ⟨owner, phase, resolved, was, host, address, allows, becomes⟩ := resolves
  subst was
  cases transition with
  | plain idle still => exact absurd idle id
  | resolveOnce _ _ undenied => exact ⟨rfl, .inl (host ▸ undenied)⟩
  | approve => exact ⟨rfl, .inr ⟨owner, rfl, host⟩⟩
  | refuse | forgo | deny =>
    have same := phase_of_resolve becomes
    simp only [Phase.removing.injEq] at same
    exact absurd same.1.symm allows
  | publishCompleted | publishDropped => simp [resolve] at becomes
  | _ => exact absurd (phase_of_resolve becomes) (by simp)

theorem created_le : service.created ≤ after.created := by
  cases transition <;> simp

omit transition in
theorem setDecision_changed {published : Nat}
    (changed : (service.setDecision published decision).decision pending ≠
      service.decision pending) :
    published = pending ∧
      (service.setDecision published decision).decision pending = some decision := by
  rw [setDecision] at changed ⊢
  split at changed
  · by_cases same : pending = published
    · simp_all
    · simp [Function.update_of_ne same] at changed
  · exact absurd rfl changed

theorem decision_changed (changed : after.decision pending ≠ service.decision pending) :
    ∃ owner decision ending, source = .owning owner (.publishing decision ending) ∧
      owner.pending = pending ∧ after.decision pending = some decision := by
  cases transition with
  | publishCompleted owner decision | publishDropped owner decision =>
    have sets := setDecision_changed changed
    exact ⟨owner, decision, _, rfl, sets.1, sets.2⟩
  | _ => exact absurd (by simp) changed

theorem owner_of_target (owns : target = .owning next phase) :
    (∃ owner before, source = .owning owner before ∧ next.key = owner.key ∧
      next.pending = owner.pending) ∨
    (∃ candidate, source = .requesting candidate) ∧ next.pending = service.created ∧
      next.decisionOnDrop = .deny ∧ get next.key service.pendingHostApprovals = none ∧
      (phase = .reviewing ∨ phase = .removing .deny (.completing false)) ∧
      after = { service with
        pendingHostApprovals := (next.key, service.created) :: service.pendingHostApprovals
        created := service.created + 1 } := by
  cases transition with
  | plain idle still | releaseDenied _ still | releaseApproved _ still =>
    subst owns
    exact absurd still id
  | create candidate owner fresh address closed
  | createRefused candidate owner fresh address closed =>
    obtain ⟨rfl, rfl⟩ := owning.inj owns
    exact .inr ⟨⟨candidate, rfl⟩, address, closed, fresh, by simp, rfl⟩
  | refuse owner | forgo owner | resolveOnce owner | approve owner | deny owner
  | applyProxy owner | applyRule owner =>
    obtain ⟨rfl, rfl⟩ := owning.inj owns
    exact .inl ⟨owner, _, rfl, rfl, rfl⟩
  | _ =>
    first
    | (obtain ⟨rfl, rfl⟩ := owning.inj owns; exact .inl ⟨_, _, rfl, rfl, rfl⟩)
    | simp at owns

theorem waiting_of_target (waits : target = .waiting key pending) :
    after = service ∧ (∃ candidate, source = .requesting candidate) ∧
      ∃ entry, entry.host = key ∧ get entry service.pendingHostApprovals = some pending := by
  cases transition with
  | plain idle still | releaseDenied _ still | releaseApproved _ still =>
    subst waits
    exact absurd still id
  | join candidate entry address host found =>
    simp only [waiting.injEq] at waits
    exact ⟨rfl, ⟨candidate, rfl⟩, entry, host.trans waits.1, found.trans (by rw [waits.2])⟩
  | _ => simp [resolve] at waits

omit transition in
theorem allow_of_toNetworkDecision (allows : decision.toNetworkDecision = .allow) :
    decision ≠ .deny := by
  rintro rfl
  simp [PendingApprovalDecision.toNetworkDecision, notAllowed] at allows

theorem answered_allow (answers : target = .answered .allow) :
    (∃ candidate, source = .checkingApproved candidate ∧
      candidate.key ∈ service.sessionApprovedHosts) ∨
    (∃ key pending decision, source = .waiting key pending ∧
      service.decision pending = some decision ∧ decision ≠ .deny) ∨
    ∃ owner decision ending, source = .owning owner (.publishing decision ending) ∧
      decision ≠ .deny := by
  cases transition with
  | plain idle still | releaseDenied _ still | releaseApproved _ still =>
    subst answers
    simp [Plain, notAllowed] at still
  | checkAllowed candidate approved => exact .inl ⟨candidate, rfl, approved⟩
  | wake key pending decision decided =>
    simp only [answered.injEq] at answers
    exact .inr (.inl ⟨key, pending, decision, rfl, decided, allow_of_toNetworkDecision answers⟩)
  | publishCompleted owner decision guarded =>
    simp only [answered.injEq] at answers
    exact .inr (.inr ⟨owner, decision, _, rfl, allow_of_toNetworkDecision answers⟩)
  | _ => simp [resolve] at answers

theorem pending_kept (owned : source = .owning owner phase)
    (listed : ∀ decision ending, phase ≠ .removing decision ending) :
    after.pendingHostApprovals = service.pendingHostApprovals := by
  cases transition with
  | remove _ decision ending =>
    rw [owning.injEq] at owned
    exact absurd owned.2.symm (listed decision ending)
  | _ => simp_all

theorem pending_added
    {entry : PendingHostApprovalKey × Nat} (member : entry ∈ after.pendingHostApprovals) :
    entry ∈ service.pendingHostApprovals ∨ ∃ owner phase, target = .owning owner phase ∧
      entry = (owner.key, service.created) ∧ owner.pending = service.created ∧
      after.created = service.created + 1 := by
  cases transition with
  | create _ owner _ address | createRefused _ owner _ address =>
    cases mem_cons.mp member with
    | inl new => exact .inr ⟨owner, _, rfl, new, address, rfl⟩
    | inr old => exact .inl old
  | remove owner decision ending =>
    left
    rw [removePending] at member
    split at member
    · exact mem_of_mem_filter member
    · exact member
  | _ => exact .inl (by simpa using member)

theorem get_pending_changed
    {key : PendingHostApprovalKey} (listed : get key service.pendingHostApprovals = some pending)
    (changed : get key after.pendingHostApprovals ≠ some pending) :
    ∃ owner decision ending, source = .owning owner (.removing decision ending) ∧
      owner.key = key ∧ owner.pending = pending := by
  cases transition with
  | create candidate owner fresh address closed
  | createRefused candidate owner fresh address closed =>
    have different : owner.key ≠ key := by
      rintro rfl
      simp [fresh] at listed
    exact absurd (by simpa [get_cons, different] using listed) changed
  | remove owner decision ending =>
    rw [removePending] at changed
    split at changed
    · next mine =>
      by_cases same : owner.key = key
      · refine ⟨owner, decision, ending, rfl, same, ?_⟩
        rwa [same, listed, Option.some.injEq, eq_comm] at mine
      · rw [get_remove, if_neg same] at changed
        exact absurd listed changed
    · exact absurd listed changed
  | _ => exact absurd (by simpa using listed) changed

theorem get_pending_kept
    {key : PendingHostApprovalKey} (listed : get key service.pendingHostApprovals = some pending)
    (other : ∀ owner phase, source = .owning owner phase → owner.pending ≠ pending) :
    get key after.pendingHostApprovals = some pending := by
  by_contra changed
  obtain ⟨owner, decision, ending, owned, _, address⟩ :=
    get_pending_changed transition listed changed
  exact other owner _ owned address

section

variable (distinct : (keys service.pendingHostApprovals).Nodup)
include distinct

theorem pending_removed
    {key : PendingHostApprovalKey} (member : (key, pending) ∈ service.pendingHostApprovals)
    (removed : (key, pending) ∉ after.pendingHostApprovals) :
    ∃ owner decision ending, source = .owning owner (.removing decision ending) ∧
      owner.key = key ∧ owner.pending = pending := by
  apply get_pending_changed transition (get_of_mem distinct member)
  intro kept
  exact removed (mem_of_get kept)

theorem nodup_pending : (keys after.pendingHostApprovals).Nodup := by
  cases transition with
  | create candidate owner fresh address closed
  | createRefused candidate owner fresh address closed =>
    rw [KeyedList.keys_cons, nodup_cons]
    exact ⟨(get_eq_none _ _).mp fresh, distinct⟩
  | remove owner decision ending =>
    rw [removePending]
    split
    · exact nodup_remove owner.key distinct
    · exact distinct
  | _ => simpa using distinct

end

theorem publishing_ends (publishes : source = .owning owner (.publishing decision ending))
    (next : PendingHostApprovalOwner) (phase : Phase) : target ≠ .owning next phase := by
  cases transition with
  | plain idle still =>
    subst publishes
    exact absurd idle id
  | dropOwner _ _ undecided =>
    rw [owning.injEq] at publishes
    rw [publishes.2] at undecided
    exact absurd undecided id
  | _ => simp_all

theorem removing_next (removes : source = .owning owner (.removing decision ending)) :
    target = .owning owner (.publishing decision ending) := by
  cases transition with
  | plain idle still =>
    subst removes
    exact absurd idle id
  | dropOwner _ _ undecided =>
    rw [owning.injEq] at removes
    rw [removes.2] at undecided
    exact absurd undecided id
  | remove =>
    obtain ⟨rfl, same⟩ := owning.inj removes
    cases same
    rfl
  | _ => simp_all

theorem publishing_of_target (publishes : target = .owning owner (.publishing decision ending)) :
    source = .owning owner (.removing decision ending) ∧
      after = service.removePending owner.key owner.pending := by
  cases transition <;> simp_all [resolve, Plain]

theorem removing_of_target
    (removes : target = .owning owner (.removing decision ending)) (allows : decision ≠ .deny) :
    ResolvesAllow owner.key.host owner.pending ⟨service, source, input, after, target⟩ ∨
      ∃ phase, source = .owning owner phase ∧ Phase.Undecided phase ∧
        owner.decisionOnDrop = decision := by
  cases transition with
  | plain idle still | releaseDenied _ still | releaseApproved _ still =>
    subst removes
    exact absurd still id
  | createRefused | refused =>
    simp only [owning.injEq, Phase.removing.injEq] at removes
    exact absurd removes.2.1.symm allows
  | refuse | forgo | deny =>
    simp only [resolve, owning.injEq, Phase.removing.injEq] at removes
    exact absurd removes.2.1.symm allows
  | resolveOnce before | approve before =>
    obtain ⟨rfl, rfl, rfl⟩ := removes
    exact .inl ⟨before, _, _, rfl, rfl, rfl, allows, rfl⟩
  | dropOwner before phase undecided =>
    simp only [owning.injEq, Phase.removing.injEq] at removes
    obtain ⟨rfl, same, rfl⟩ := removes
    exact .inr ⟨phase, rfl, undecided, same⟩
  | _ => simp at removes

theorem approving_of_target
    (approves : target = .owning owner .approving) : owner.key.host ∉ after.sessionDeniedHosts := by
  cases transition <;> simp_all [resolve, Plain]

theorem checkingApproved_of_target {candidate : Candidate}
    (checks : target = .checkingApproved candidate) : candidate.key ∉ after.sessionDeniedHosts := by
  cases transition <;> simp_all [resolve, Plain]

theorem dropped_owner (owned : source = .owning owner phase) (drops : input = .drop) :
    Phase.Undecided phase ∧ target = .owning owner (.removing owner.decisionOnDrop .dropping) := by
  cases transition <;> simp_all [Plain]

omit transition in
theorem setDecision_decided (service : NetworkApprovalService) (pending : Nat)
    (decision : PendingApprovalDecision) :
    (service.setDecision pending decision).decision pending ≠ none := by
  rw [setDecision]
  split
  · simp
  · next decided => exact decided

theorem owner_continues (owned : source = .owning owner phase) :
    (∃ next later, target = .owning next later ∧ next.pending = owner.pending) ∨
      after.decision owner.pending ≠ none := by
  cases transition with
  | plain idle still =>
    subst owned
    exact absurd idle id
  | publishCompleted before decision | publishDropped before decision =>
    obtain ⟨rfl, _⟩ := owning.inj owned
    exact .inr (setDecision_decided service before.pending decision)
  | lockCheck | passDenied | releaseDenied | releaseApproved | checkAllowed | join | create
  | createRefused | wake | leave => cases owned
  | _ =>
    obtain ⟨rfl, _⟩ := owning.inj owned
    exact .inl ⟨_, _, rfl, rfl⟩

theorem created_owned (below : pending < after.created) :
    pending < service.created ∨ ∃ owner phase, target = .owning owner phase ∧
      owner.pending = pending := by
  cases transition with
  | create _ owner _ address | createRefused _ owner _ address =>
    cases Nat.lt_succ_iff_lt_or_eq.mp below with
    | inl old => exact .inl old
    | inr new => exact .inr ⟨owner, _, rfl, address.trans new.symm⟩
  | _ => exact .inl (by simpa using below)

theorem answered_of_waiting {answer : NetworkDecision} (waits : source = .waiting key pending)
    (answers : target = .answered answer) :
    ∃ decision, service.decision pending = some decision ∧ answer = decision.toNetworkDecision := by
  cases transition with
  | plain idle still =>
    subst waits
    exact absurd idle id
  | wake _ _ decision decided =>
    simp only [waiting.injEq, answered.injEq] at waits answers
    exact ⟨decision, waits.2 ▸ decided, answers.symm⟩
  | _ => simp_all

end Effects

end OpenInterpreter.NetworkEvents
