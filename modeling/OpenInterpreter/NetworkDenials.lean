import OpenInterpreter.NetworkEvents

/-! Network denials under concurrency: what every interleaving of inline approvals keeps. -/

namespace OpenInterpreter.NetworkDenials

open NetworkApproval NetworkTransitions NetworkEvents Interleaving KeyedList List Option Stage

/-! ### What holds of a history -/

def AllowsGrounded : List Event → Prop :=
  AtEach fun earlier event => event.target = .answered .allow →
    (∃ candidate, event.source = .checkingApproved candidate ∧
      candidate.key ∈ event.before.sessionApprovedHosts ∧
      candidate.key ∉ event.before.sessionDeniedHosts) ∨
    ∃ key pending, BelongsTo key pending event.source ∧
      ∃ decision ∈ earlier, DecidesAllow key pending decision

def DenialsHold : List Event → Prop :=
  AtEach fun earlier event => ∀ key, DenialStands key earlier →
    ¬ ChecksAllowed key event ∧ ∀ pending, ¬ ResolvesAllow key pending event

def Applied (owner : PendingHostApprovalOwner) (history : List Event) : Prop :=
  ∃ event ∈ history, AppliesAllow owner.key.host owner.pending event

/-- A dropped owner publishes Allow when its amendment was applied and Deny otherwise. -/
def DropsClosed : List Event → Prop :=
  AtEach fun earlier event => ∀ owner phase, event.source = .owning owner phase →
    event.input = .drop →
    ∃ decision, event.target = .owning owner (.removing decision .dropping) ∧
      (Applied owner earlier ∧ decision = .allowForSession ∨
        ¬ Applied owner earlier ∧ decision = .deny)

/-- A pending approval is removed and decided by its owner alone, and a waiter is answered by the
decision of the approval it waits for. -/
def OwnersPublish : List Event → Prop :=
  AtEach fun _ event =>
    (∀ key pending, (key, pending) ∈ event.before.pendingHostApprovals →
      (key, pending) ∉ event.after.pendingHostApprovals →
      ∃ owner decision ending, event.source = .owning owner (.removing decision ending) ∧
        owner.key = key ∧ owner.pending = pending) ∧
    (∀ pending, event.after.decision pending ≠ event.before.decision pending →
      ∃ owner decision ending, event.source = .owning owner (.publishing decision ending) ∧
        owner.pending = pending ∧ event.after.decision pending = some decision) ∧
    ∀ key pending answer, event.source = .waiting key pending → event.target = .answered answer →
      ∃ decision, event.before.decision pending = some decision ∧
        answer = decision.toNetworkDecision

theorem denialStands_append {key : HostApprovalKey} {history : List Event} {event : Event}
    (stands : DenialStands key (history ++ [event])) :
    EntersDenied key event ∨
      DenialStands key history ∧ ∀ pending, ¬ AppliesAllow key pending event := by
  obtain ⟨earlier, denial, later, parts, enters, since⟩ := stands
  rcases concat_eq_append_cons parts with ⟨rfl, rfl, rfl⟩ | ⟨rest, rfl, same⟩
  · exact .inl enters
  · exact .inr ⟨⟨earlier, denial, rest, same, enters, fun middle member =>
      since middle (mem_append_left _ member)⟩, since event mem_concat_self⟩

/-! ### The invariant -/

def MayHaveApplied : Phase → Prop
  | .persisting amendment stage => amendment.action = .allow ∧ stage = .appending true
  | .reporting action => action = .allow
  | .undenying | .approving => True
  | _ => False

variable (service : NetworkApprovalService)

structure OwnerState (history : List Event)
    (owner : PendingHostApprovalOwner) (phase : Phase) : Prop where
  address : owner.pending < service.created
  undecided : service.decision owner.pending = none
  listed : (∀ decision ending, phase ≠ .publishing decision ending) →
    get owner.key service.pendingHostApprovals = some owner.pending
  unlisted : ∀ decision ending, phase = .publishing decision ending →
    ∀ key, (key, owner.pending) ∉ service.pendingHostApprovals
  approving : phase = .approving → owner.key.host ∉ service.sessionDeniedHosts
  grounded : ∀ decision ending,
    phase = .removing decision ending ∨ phase = .publishing decision ending → decision ≠ .deny →
    ∃ event ∈ history, DecidesAllow owner.key.host owner.pending event
  onDrop : Phase.Undecided phase →
    Applied owner history ∧ owner.decisionOnDrop = .allowForSession ∧ MayHaveApplied phase ∨
      ¬ Applied owner history ∧ owner.decisionOnDrop = .deny

structure CallState (history : List Event) (stage : Stage) : Prop where
  locked : stage.holdsCommit = true → service.sessionPolicyCommitLocked = true
  checked : ∀ candidate, stage = .checkingApproved candidate →
    candidate.key ∉ service.sessionDeniedHosts
  owner : ∀ owner phase, stage = .owning owner phase → OwnerState service history owner phase
  waiter : ∀ key pending, stage = .waiting key pending → pending < service.created ∧
    ∀ event ∈ history, ∀ other, DecidesAllow other pending event → other = key
  past : ∀ key, DenialStands key history → ¬ PastCheck key stage

structure ServiceState (history : List Event) : Prop where
  grounded : AllowsGrounded history
  denials : DenialsHold history
  drops : DropsClosed history
  publish : OwnersPublish history
  denied : ∀ key, DenialStands key history → key ∈ service.sessionDeniedHosts
  decided : ∀ pending decision, service.decision pending = some decision → decision ≠ .deny →
    ∃ key, ∃ event ∈ history, DecidesAllow key pending event
  applied : ∀ event ∈ history, ∀ key pending, AppliesAllow key pending event →
    DecidesAllow key pending event
  distinct : (keys service.pendingHostApprovals).Nodup
  entries : ∀ key pending, (key, pending) ∈ service.pendingHostApprovals →
    pending < service.created ∧ service.decision pending = none ∧
      ∀ event ∈ history, ∀ other, DecidesAllow other pending event → other = key.host
  addresses : ∀ key other pending, (key, pending) ∈ service.pendingHostApprovals →
    (other, pending) ∈ service.pendingHostApprovals → key = other
  fresh : ∀ pending, service.created ≤ pending → service.decision pending = none ∧
    ∀ event ∈ history, ∀ key, ¬ DecidesAllow key pending event

/-- Two calls do not hold the commit lock or own one approval together, and who waits for an
approval waits for its owner's key. -/
structure Apart (left right : Stage) : Prop where
  exclusive : ¬ (left.holdsCommit = true ∧ right.holdsCommit = true)
  owners : ∀ first phase second later, left = .owning first phase → right = .owning second later →
    first.pending ≠ second.pending
  waiting : ∀ owner phase key pending, left = .owning owner phase → right = .waiting key pending →
    owner.pending = pending → owner.key.host = key
  awaited : ∀ owner phase key pending, right = .owning owner phase → left = .waiting key pending →
    owner.pending = pending → owner.key.host = key

variable {service : NetworkApprovalService} {after : NetworkApprovalService} {input : Input}

section Steps

variable {history : List Event} {event : Event} {other : Stage} {key : HostApprovalKey}
  {pending : Nat} {owner : PendingHostApprovalOwner} {phase later : Phase}

abbrev Taken (event : Event) : Prop :=
  Transition event.before event.source event.input event.after event.target

theorem forall_mem_concat {holds : Event → Prop} :
    (∀ each ∈ history ++ [event], holds each) ↔ (∀ each ∈ history, holds each) ∧ holds event := by
  simp [or_imp, forall_and]

theorem exists_mem_concat {holds : Event → Prop} (found : ∃ each ∈ history, holds each) :
    ∃ each ∈ history ++ [event], holds each := by
  obtain ⟨each, member, here⟩ := found
  exact ⟨each, mem_append_left _ member, here⟩

theorem owner_of_decides (decides : DecidesAllow key pending event) :
    ∃ owner phase, event.source = .owning owner phase ∧ owner.key.host = key ∧
      owner.pending = pending := by
  cases decides.2.2 with
  | inl resolves =>
    obtain ⟨owner, phase, _, was, host, address, _⟩ := resolves.1
    exact ⟨owner, phase, was, host, address⟩
  | inr applies =>
    obtain ⟨owner, amendment, stage, _, _, was, host, address, _⟩ := applies
    exact ⟨owner, _, was, host, address⟩

theorem entry_of_owner (state : ServiceState service history)
    {key : PendingHostApprovalKey} (owned : OwnerState service history owner phase)
    (member : (key, owner.pending) ∈ service.pendingHostApprovals) : owner.key = key := by
  by_cases publishes : ∃ decision ending, phase = .publishing decision ending
  · obtain ⟨decision, ending, same⟩ := publishes
    exact absurd member (owned.unlisted decision ending same key)
  · have listed := owned.listed fun decision ending same => publishes ⟨decision, ending, same⟩
    exact state.addresses _ _ _ (mem_of_get listed) member

theorem decision_kept (taken : Taken event) (undecided : event.before.decision pending = none)
    (unowned : ∀ owner decision ending, event.source = .owning owner (.publishing decision ending) →
      owner.pending ≠ pending) : event.after.decision pending = none := by
  by_contra changed
  obtain ⟨owner, decision, ending, was, address, _⟩ :=
    decision_changed taken (undecided.symm ▸ changed)
  exact unowned owner decision ending was address

variable (taken : Taken event)

section

variable (state : ServiceState event.before history)
  (call : CallState event.before history event.source)
include taken state call

/-! #### The service -/

omit state in
theorem resolves_decides (resolves : ResolvesAllow key pending event) :
    DecidesAllow key pending event := by
  obtain ⟨holds, undenied⟩ := resolvesAllow_spec taken resolves
  refine ⟨holds, call.locked holds, .inl ⟨resolves, ?_⟩⟩
  cases undenied with
  | inl undenied => exact undenied
  | inr approves =>
    obtain ⟨owner, was, host⟩ := approves
    exact host ▸ (call.owner owner _ was).approving rfl

omit taken state in
theorem applies_decides (applies : AppliesAllow key pending event) :
    DecidesAllow key pending event := by
  have holds : event.source.holdsCommit = true := by
    obtain ⟨owner, amendment, stage, _, _, was, _⟩ := applies
    rw [was]
    rfl
  exact ⟨holds, call.locked holds, .inr applies⟩

theorem grounded_step : AllowsGrounded (history ++ [event]) := by
  apply state.grounded.append
  intro answers
  rcases answered_allow taken answers with
    ⟨candidate, was, approved⟩ | ⟨key, pending, decision, was, decided, allows⟩ |
      ⟨owner, decision, ending, was, allows⟩
  · exact .inl ⟨candidate, was, approved, call.checked candidate was⟩
  · obtain ⟨other, event, member, decides⟩ := state.decided pending decision decided allows
    have same := (call.waiter key pending was).2 event member other decides
    exact .inr ⟨key, pending, .inl was, event, member, same ▸ decides⟩
  · exact .inr ⟨_, _, .inr ⟨owner, _, was, rfl, rfl⟩,
      (call.owner owner _ was).grounded decision ending (.inr rfl) allows⟩

theorem denials_step : DenialsHold (history ++ [event]) := by
  apply state.denials.append
  intro key stands
  have unpast := call.past key stands
  constructor
  · rintro ⟨candidate, was, host, _⟩
    rw [was] at unpast
    exact unpast host
  · intro pending resolves
    cases (resolvesAllow_spec taken resolves).2 with
    | inl undenied => exact undenied (state.denied key stands)
    | inr approves =>
      obtain ⟨owner, was, host⟩ := approves
      rw [was] at unpast
      exact unpast host

theorem drops_step : DropsClosed (history ++ [event]) := by
  apply state.drops.append
  intro owner phase was drops
  obtain ⟨undecided, becomes⟩ := dropped_owner taken was drops
  refine ⟨owner.decisionOnDrop, becomes, ?_⟩
  cases (call.owner owner phase was).onDrop undecided with
  | inl applied => exact .inl ⟨applied.1, applied.2.1⟩
  | inr unapplied => exact .inr unapplied

omit call in
theorem publish_step : OwnersPublish (history ++ [event]) := by
  apply state.publish.append
  refine ⟨?_, ?_, ?_⟩
  · intro key pending member removed
    exact pending_removed taken state.distinct member removed
  · intro pending changed
    exact decision_changed taken changed
  · intro key pending answer was becomes
    exact answered_of_waiting taken was becomes

theorem denied_step (key : HostApprovalKey) (stands : DenialStands key (history ++ [event])) :
    key ∈ event.after.sessionDeniedHosts := by
  cases denialStands_append stands with
  | inl enters => exact (entersDenied_spec taken enters).1
  | inr before =>
    by_contra undenied
    exact call.past key before.1 (undenied_by taken (state.denied key before.1) undenied)

theorem decided_step (pending : Nat) (decision : PendingApprovalDecision)
    (decided : event.after.decision pending = some decision) (allows : decision ≠ .deny) :
    ∃ key, ∃ found ∈ history ++ [event], DecidesAllow key pending found := by
  by_cases changed : event.after.decision pending = event.before.decision pending
  · obtain ⟨key, found⟩ := state.decided pending decision (changed ▸ decided) allows
    exact ⟨key, exists_mem_concat found⟩
  · obtain ⟨owner, published, ending, was, rfl, sets⟩ := decision_changed taken changed
    have same : published = decision := by
      rw [decided, some.injEq] at sets
      exact sets.symm
    exact ⟨_, exists_mem_concat
      ((call.owner owner _ was).grounded published ending (.inr rfl) (same ▸ allows))⟩

theorem entries_step (key : PendingHostApprovalKey) (pending : Nat)
    (member : (key, pending) ∈ event.after.pendingHostApprovals) :
    pending < event.after.created ∧ event.after.decision pending = none ∧
      ∀ found ∈ history ++ [event], ∀ other, DecidesAllow other pending found →
        other = key.host := by
  rw [forall_mem_concat]
  cases pending_added taken member with
  | inl old =>
    obtain ⟨address, undecided, decides⟩ := state.entries key pending old
    refine ⟨lt_of_lt_of_le address (created_le taken), ?_, decides, ?_⟩
    · apply decision_kept taken undecided
      rintro owner decision ending was rfl
      exact (call.owner owner _ was).unlisted decision ending rfl key old
    · intro other decided
      obtain ⟨owner, phase, was, host, rfl⟩ := owner_of_decides decided
      rw [← host, entry_of_owner state (call.owner owner phase was) old]
  | inr new =>
    obtain ⟨owner, phase, becomes, entry, _, grown⟩ := new
    cases entry
    obtain ⟨undecided, undecidable⟩ := state.fresh event.before.created (Nat.le_refl _)
    refine ⟨grown ▸ Nat.lt_succ_self _, ?_, ?_, ?_⟩
    · apply decision_kept taken undecided
      intro before decision ending was
      exact Nat.ne_of_lt (call.owner before _ was).address
    · exact fun found earlier other decided => absurd decided (undecidable found earlier other)
    · intro other decided
      obtain ⟨before, stage, was, _, address⟩ := owner_of_decides decided
      exact absurd address (Nat.ne_of_lt (call.owner before stage was).address)

omit call in
theorem addresses_step (key other : PendingHostApprovalKey) (pending : Nat)
    (member : (key, pending) ∈ event.after.pendingHostApprovals)
    (again : (other, pending) ∈ event.after.pendingHostApprovals) : key = other := by
  have below : ∀ entry, (entry, event.before.created) ∉ event.before.pendingHostApprovals := by
    intro entry listed
    exact Nat.lt_irrefl _ (state.entries entry _ listed).1
  rcases pending_added taken member with old | ⟨owner, phase, becomes, entry, _⟩
  · rcases pending_added taken again with still | ⟨owner, phase, becomes, entry, _⟩
    · exact state.addresses key other pending old still
    · cases entry
      exact absurd old (below key)
  · rcases pending_added taken again with still | ⟨second, later, same, entry', _⟩
    · cases entry
      exact absurd still (below other)
    · cases entry
      cases entry'
      rw [becomes, owning.injEq] at same
      rw [same.1]

theorem fresh_step (pending : Nat) (beyond : event.after.created ≤ pending) :
    event.after.decision pending = none ∧
      ∀ found ∈ history ++ [event], ∀ key, ¬ DecidesAllow key pending found := by
  have outside := le_trans (created_le taken) beyond
  obtain ⟨undecided, undecidable⟩ := state.fresh pending outside
  refine ⟨?_, forall_mem_concat.mpr ⟨undecidable, ?_⟩⟩
  · apply decision_kept taken undecided
    rintro owner decision ending was rfl
    exact absurd (call.owner owner _ was).address (Nat.not_lt.mpr outside)
  · intro key decided
    obtain ⟨owner, phase, was, _, rfl⟩ := owner_of_decides decided
    exact absurd (call.owner owner phase was).address (Nat.not_lt.mpr outside)

theorem service_step : ServiceState event.after (history ++ [event]) where
  grounded := grounded_step taken state call
  denials := denials_step taken state call
  drops := drops_step taken state call
  publish := publish_step taken state
  denied := denied_step taken state call
  decided := decided_step taken state call
  applied := forall_mem_concat.mpr ⟨state.applied, fun _ _ => applies_decides call⟩
  distinct := nodup_pending taken state.distinct
  entries := entries_step taken state call
  addresses := addresses_step taken state
  fresh := fresh_step taken state call

end

/-! #### The call that takes the step -/

section

variable (now : ¬ AppliesAllow owner.key.host owner.pending event)
include now

theorem applied_append_iff :
    Applied owner (history ++ [event]) ↔ Applied owner history := by
  simp [Applied, now]

def Drops (history : List Event) (owner : PendingHostApprovalOwner) (phase : Phase) : Prop :=
  Applied owner history ∧ owner.decisionOnDrop = .allowForSession ∧ MayHaveApplied phase ∨
    ¬ Applied owner history ∧ owner.decisionOnDrop = .deny

theorem onDrop_kept (before : OwnerState service history owner phase)
    (undecided : Phase.Undecided phase)
    (may : MayHaveApplied phase → MayHaveApplied later) :
    Drops (history ++ [event]) owner later := by
  rw [Drops, applied_append_iff now]
  cases before.onDrop undecided with
  | inl applied => exact .inl ⟨applied.1, applied.2.1, may applied.2.2⟩
  | inr unapplied => exact .inr unapplied

end

theorem onDrop_applied {amendment : NetworkPolicyAmendment} {stage : PersistStage}
    (before : OwnerState service history owner (.persisting amendment stage))
    (early : stage ≠ .appending true) (may : amendment.action = .allow → MayHaveApplied later) :
    let next := owner.policyApplied amendment.action
    Drops (history ++ [⟨service, .owning owner (.persisting amendment stage), input, after,
      .owning next later⟩]) next later := by
  intro next
  have unapplied : ¬ Applied owner history ∧ owner.decisionOnDrop = .deny := by
    cases before.onDrop trivial with
    | inl applied => exact absurd applied.2.2.2 early
    | inr unapplied => exact unapplied
  cases action : amendment.action with
  | allow =>
    have allows : next.decisionOnDrop = .allowForSession := by
      simp [next, PendingHostApprovalOwner.policyApplied, action]
    refine .inl ⟨⟨_, mem_concat_self, owner, amendment, stage, next, later, rfl, rfl, rfl, ?_,
      rfl, allows⟩, allows, may action⟩
    rw [unapplied.2]
    simp
  | deny =>
    have denies : next.decisionOnDrop = .deny := by
      simp [next, PendingHostApprovalOwner.policyApplied, action]
    refine .inr ⟨?_, denies⟩
    rw [applied_append_iff]
    · exact unapplied.1
    · rintro ⟨_, _, _, _, _, _, _, _, _, becomes, allows⟩
      cases becomes
      rw [denies] at allows
      cases allows

theorem not_applies_same :
    ¬ AppliesAllow key pending
      ⟨service, .owning owner phase, input, after, .owning owner later⟩ := by
  rintro ⟨before, _, _, next, _, was, _, _, unapplied, becomes, allows⟩
  rw [owning.injEq] at was becomes
  exact unapplied (was.1 ▸ becomes.1 ▸ allows)

section

variable (state : ServiceState event.before history)
  (call : CallState event.before history event.source)
include taken state call

theorem onDrop_step (owns : event.target = .owning owner phase)
    (undecided : Phase.Undecided phase) : Drops (history ++ [event]) owner phase := by
  obtain ⟨service, source, input, after, target⟩ := event
  change Transition service source input after target at taken
  cases taken with
  | plain idle still | releaseDenied _ still | releaseApproved _ still =>
    cases owns
    exact absurd still id
  | create candidate created fresh address closed =>
    obtain ⟨rfl, rfl⟩ := owning.inj owns
    refine .inr ⟨?_, closed⟩
    rw [applied_append_iff]
    · rintro ⟨event, earlier, applies⟩
      exact (state.fresh _ (Nat.le_of_eq address.symm)).2 event earlier _
        (state.applied event earlier _ _ applies)
    · rintro ⟨_, _, _, _, _, was, _⟩
      cases was
  | applyProxy before amendment stage live early =>
    obtain ⟨rfl, rfl⟩ := owning.inj owns
    exact onDrop_applied (call.owner before _ rfl) early fun allows => ⟨allows, rfl⟩
  | applyRule before amendment stage live early =>
    obtain ⟨rfl, rfl⟩ := owning.inj owns
    exact onDrop_applied (call.owner before _ rfl) early id
  | persist before amendment stage later live early =>
    obtain ⟨rfl, rfl⟩ := owning.inj owns
    exact onDrop_kept not_applies_same (call.owner before _ rfl) trivial fun may =>
      absurd may.2 early
  | finishPersist before amendment stage =>
    obtain ⟨rfl, rfl⟩ := owning.inj owns
    exact onDrop_kept not_applies_same (call.owner before _ rfl) trivial And.left
  | redo before =>
    obtain ⟨rfl, rfl⟩ := owning.inj owns
    exact onDrop_kept not_applies_same (call.owner before _ rfl) trivial fun may => by cases may
  | reviewed before | lockOwner before | amend before | unapprove before | passSession before =>
    obtain ⟨rfl, rfl⟩ := owning.inj owns
    exact onDrop_kept not_applies_same (call.owner before _ rfl) trivial fun may => absurd may id
  | undo before | undeny before =>
    obtain ⟨rfl, rfl⟩ := owning.inj owns
    exact onDrop_kept not_applies_same (call.owner before _ rfl) trivial fun _ => trivial
  | createRefused | refused | refuse | forgo | resolveOnce | approve | deny | remove | dropOwner =>
    obtain ⟨rfl, rfl⟩ := owning.inj owns
    exact absurd undecided id
  | _ => cases owns

theorem grounded_owner_step (owns : event.target = .owning owner phase)
    (decision : PendingApprovalDecision) (ending : Ending)
    (publishes : phase = .removing decision ending ∨ phase = .publishing decision ending)
    (allows : decision ≠ .deny) :
    ∃ found ∈ history ++ [event], DecidesAllow owner.key.host owner.pending found := by
  rcases publishes with rfl | rfl
  · rcases removing_of_target taken owns allows with resolves | ⟨before, was, undecided, drops⟩
    · exact ⟨_, mem_concat_self, resolves_decides taken call resolves⟩
    · cases (call.owner owner before was).onDrop undecided with
      | inl applied =>
        obtain ⟨found, member, applies⟩ := applied.1
        exact exists_mem_concat ⟨found, member, state.applied found member _ _ applies⟩
      | inr unapplied => exact absurd (drops.symm.trans unapplied.2) allows
  · obtain ⟨was, _⟩ := publishing_of_target taken owns
    exact exists_mem_concat
      ((call.owner owner _ was).grounded decision ending (.inl rfl) allows)

theorem unlisted_step {decision : PendingApprovalDecision} {ending : Ending}
    (publishes : event.target = .owning owner (.publishing decision ending))
    (key : PendingHostApprovalKey) : (key, owner.pending) ∉ event.after.pendingHostApprovals := by
  obtain ⟨was, removed⟩ := publishing_of_target taken publishes
  have listed := (call.owner owner _ was).listed (by simp)
  rw [removed, NetworkApprovalService.removePending, if_pos listed]
  intro member
  have still := mem_filter.mp member
  have same := state.addresses _ _ _ (mem_of_get listed) still.1
  simp [same] at still

theorem owner_step (owns : event.target = .owning owner phase) :
    OwnerState event.after (history ++ [event]) owner phase := by
  have drops := onDrop_step taken state call owns
  have grounded := grounded_owner_step taken state call owns
  have approving : phase = .approving → owner.key.host ∉ event.after.sessionDeniedHosts := by
    rintro rfl
    exact approving_of_target taken owns
  have unlisted : ∀ decision ending, phase = .publishing decision ending →
      ∀ key, (key, owner.pending) ∉ event.after.pendingHostApprovals := by
    rintro decision ending rfl
    exact unlisted_step taken state call owns
  rcases owner_of_target taken owns with ⟨before, earlier, was, sameKey, samePending⟩ |
    ⟨_, address, _, _, begins, grown⟩
  · have old := call.owner before earlier was
    refine ⟨?_, ?_, ?_, unlisted, approving, grounded, drops⟩
    · rw [samePending]
      exact lt_of_lt_of_le old.address (created_le taken)
    · rw [samePending]
      apply decision_kept taken old.undecided
      intro publisher decision ending publishes
      exact absurd owns (publishing_ends taken publishes owner phase)
    · intro published
      have kept : event.after.pendingHostApprovals = event.before.pendingHostApprovals := by
        apply pending_kept taken was
        rintro decision ending rfl
        have next := removing_next taken was
        rw [owns, owning.injEq] at next
        exact published decision ending next.2
      rw [kept, sameKey, samePending]
      apply old.listed
      rintro decision ending rfl
      exact publishing_ends taken was owner phase owns
  · have undecided := (state.fresh owner.pending (Nat.le_of_eq address.symm)).1
    refine ⟨?_, ?_, ?_, unlisted, approving, grounded, drops⟩
    · rw [grown, address]
      exact Nat.lt_succ_self _
    · rw [grown]
      exact undecided
    · intro _
      rw [grown, get_cons, if_pos rfl, address]

omit call in
theorem waiter_step (waits : event.target = .waiting key pending) :
    pending < event.after.created ∧
      ∀ found ∈ history ++ [event], ∀ other, DecidesAllow other pending found → other = key := by
  obtain ⟨same, ⟨candidate, asks⟩, entry, rfl, listed⟩ := waiting_of_target taken waits
  obtain ⟨address, _, decides⟩ := state.entries entry pending (mem_of_get listed)
  refine ⟨same ▸ address, forall_mem_concat.mpr ⟨decides, fun other decided => ?_⟩⟩
  -- The step that begins to wait decides nothing.
  obtain ⟨owner, phase, was, _⟩ := owner_of_decides decided
  rw [asks] at was
  cases was

theorem past_step (key : HostApprovalKey) (stands : DenialStands key (history ++ [event])) :
    ¬ PastCheck key event.target := by
  cases denialStands_append stands with
  | inl enters => exact (entersDenied_spec taken enters).2.2 key
  | inr before =>
    intro past
    have closed : ∀ owner decision, event.source = .owning owner (.committing decision) →
        owner.decisionOnDrop = .deny := by
      intro owner decision was
      cases (call.owner owner _ was).onDrop trivial with
      | inl applied => exact absurd applied.2.2 id
      | inr unapplied => exact unapplied.2
    rcases pastCheck_of_target taken closed past with old | undenied | ⟨pending, applies⟩
    · exact call.past key before.1 old
    · exact undenied (state.denied key before.1)
    · exact before.2 pending applies

theorem call_step : CallState event.after (history ++ [event]) event.target where
  locked := lock_held taken call.locked
  checked _ checks := checkingApproved_of_target taken checks
  owner _ _ owns := owner_step taken state call owns
  waiter _ _ waits := waiter_step taken state waits
  past := past_step taken state call

end

/-! #### The other calls -/

section

variable (apart : Apart event.source other)
include taken apart

theorem owner_other (owned : other = .owning owner phase)
    (old : OwnerState event.before history owner phase) :
    OwnerState event.after (history ++ [event]) owner phase := by
  have different : ∀ actor stage, event.source = .owning actor stage →
      actor.pending ≠ owner.pending :=
    fun actor stage was => apart.owners actor stage owner phase was owned
  have unapplied : ¬ AppliesAllow owner.key.host owner.pending event := by
    rintro ⟨actor, _, _, _, _, was, _, address, _⟩
    exact different actor _ was address
  refine ⟨lt_of_lt_of_le old.address (created_le taken), ?_, ?_, ?_, ?_, ?_, ?_⟩
  · apply decision_kept taken old.undecided
    intro actor decision ending was
    exact different actor _ was
  · intro published
    exact get_pending_kept taken (old.listed published) different
  · intro decision ending publishes key member
    rcases pending_added taken member with before | ⟨created, _, _, entry, _⟩
    · exact old.unlisted decision ending publishes key before
    · exact Nat.ne_of_lt old.address (congrArg Prod.snd entry)
  · intro approves
    have holds : other.holdsCommit = true := by
      rw [owned, approves]
      rfl
    have free : event.source.holdsCommit = false := by
      by_contra held
      exact apart.exclusive ⟨by simpa using held, holds⟩
    rw [denied_kept taken free]
    exact old.approving approves
  · intro decision ending publishes allows
    exact exists_mem_concat (old.grounded decision ending publishes allows)
  · intro undecided
    rw [applied_append_iff unapplied]
    exact old.onDrop undecided

variable (old : CallState event.before history other)
include old

theorem other_step :
    CallState event.after (history ++ [event]) other := by
  have free : other.holdsCommit = true → event.source.holdsCommit = false := by
    intro holds
    by_contra held
    exact apart.exclusive ⟨by simpa using held, holds⟩
  refine ⟨?_, ?_, ?_, ?_, ?_⟩
  · intro holds
    exact locked_kept taken (free holds) (old.locked holds)
  · intro candidate checks
    rw [denied_kept taken (free (checks ▸ rfl))]
    exact old.checked candidate checks
  · intro owner phase owned
    exact owner_other taken apart owned (old.owner owner phase owned)
  · intro key pending waits
    obtain ⟨address, decides⟩ := old.waiter key pending waits
    refine ⟨lt_of_lt_of_le address (created_le taken), forall_mem_concat.mpr ⟨decides, ?_⟩⟩
    intro host decided
    obtain ⟨owner, phase, was, rfl, rfl⟩ := owner_of_decides decided
    exact apart.waiting owner phase key _ was waits rfl
  · intro key stands past
    cases denialStands_append stands with
    | inl enters =>
      have held := (entersDenied_spec taken enters).2.1
      rw [free past.holdsCommit] at held
      cases held
    | inr before => exact old.past key before.1 past

theorem apart_step (state : ServiceState event.before history) : Apart event.target other := by
  refine ⟨?_, ?_, ?_, ?_⟩
  · rintro ⟨holds, others⟩
    cases lock_taken taken holds with
    | inl held => exact apart.exclusive ⟨held, others⟩
    | inr unlocked =>
      rw [old.locked others] at unlocked
      cases unlocked
  · intro owner phase second later owns others
    rcases owner_of_target taken owns with ⟨before, earlier, was, _, same⟩ | ⟨_, address, _⟩
    · rw [same]
      exact apart.owners before earlier second later was others
    · rw [address]
      exact Nat.ne_of_gt (old.owner second later others).address
  · rintro owner phase key pending owns waits rfl
    rcases owner_of_target taken owns with ⟨before, earlier, was, sameKey, same⟩ |
      ⟨_, address, _⟩
    · rw [sameKey]
      exact apart.waiting before earlier key _ was waits same.symm
    · exact absurd address (Nat.ne_of_lt (old.waiter key _ waits).1)
  · rintro owner phase key pending owned waits rfl
    obtain ⟨_, _, entry, rfl, listed⟩ := waiting_of_target taken waits
    rw [entry_of_owner state (old.owner owner phase owned) (mem_of_get listed)]

end

end Steps

/-! ### Every interleaving -/

section Runs

variable {normalizeHost : String → String}

theorem taken_of_step {source target : Stage}
    (stepped : step normalizeHost service source input = some (after, target)) :
    Taken ⟨service, source, input, after, target⟩ :=
  transition_of_step stepped

theorem invariant : Invariant (step normalizeHost) Stage.arriving ServiceState CallState Apart where
  symmetric left right apart := ⟨fun holds => apart.exclusive holds.symm,
      fun first phase second later owns others =>
        (apart.owners second later first phase others owns).symm,
      apart.awaited, apart.waiting⟩
  start_own service history request _ := by
    refine ⟨by simp [holdsCommit], by simp, by simp, by simp, fun key _ => id⟩
  start_apart service history request other _ := by
    refine ⟨by simp [holdsCommit], by simp, by simp, by simp⟩
  step_shared _ _ _ _ _ _ state call stepped := service_step (taken_of_step stepped) state call
  step_own _ _ _ _ _ _ state call stepped := call_step (taken_of_step stepped) state call
  step_other _ _ _ _ _ _ _ _ _ old apart stepped := other_step (taken_of_step stepped) apart old
  step_apart _ _ _ _ _ _ _ state _ old apart stepped :=
    apart_step (taken_of_step stepped) apart old state

def Owns (pending : Nat) (stage : Stage) : Prop :=
  ∃ owner phase, stage = .owning owner phase ∧ owner.pending = pending

def Open (service : NetworkApprovalService) (pending : Nat) : Prop :=
  pending < service.created ∧ service.decision pending = none

theorem open_owned {source target : Stage} {pending : Nat}
    (transition : Transition service source input after target) (opened : Open after pending) :
    Owns pending target ∨ Open service pending ∧ ¬ Owns pending source := by
  by_cases owned : Owns pending source
  · obtain ⟨owner, phase, was, rfl⟩ := owned
    rcases owner_continues transition was with ⟨next, later, becomes, same⟩ | decided
    · exact .inl ⟨next, later, becomes, same⟩
    · exact absurd opened.2 decided
  · cases created_owned transition opened.1 with
    | inr new => exact .inl new
    | inl old =>
      refine .inr ⟨⟨old, ?_⟩, owned⟩
      by_contra decided
      have changed : after.decision pending ≠ service.decision pending := by
        rw [opened.2]
        exact Ne.symm decided
      obtain ⟨owner, decision, ending, was, address, _⟩ := decision_changed transition changed
      exact owned ⟨owner, _, was, address⟩

def Finishes (normalizeHost : String → String)
    (world : World NetworkApprovalService Stage Input) : Prop :=
  ∀ (index : Nat) owner decision ending,
    world.locals[index]? = some (.owning owner (.removing decision ending)) →
    ∃ next, run (step normalizeHost) Stage.arriving world [.act index .resume, .act index .resume] =
        some next ∧
      next.shared.decision owner.pending = some decision ∧
      ∀ (waiter : Nat) key, next.locals[waiter]? = some (.waiting key owner.pending) →
        ∃ last, move (step normalizeHost) Stage.arriving next (.act waiter .resume) = some last ∧
          last.locals[waiter]? = some (.answered decision.toNetworkDecision)

theorem publishing_step {owner : PendingHostApprovalOwner} (decision : PendingApprovalDecision)
    (ending : Ending) (undecided : service.decision owner.pending = none) :
    ∃ after target, step normalizeHost service (.owning owner (.publishing decision ending))
        .resume = some (after, target) ∧ after.decision owner.pending = some decision := by
  cases ending with
  | completing | dropping =>
    exact ⟨_, _, rfl, by simp [NetworkApprovalService.setDecision, undecided]⟩

theorem finishes {world : World NetworkApprovalService Stage Input}
    (holds : Holds ServiceState CallState Apart world) : Finishes normalizeHost world := by
  intro index owner decision ending present
  have undecided := ((holds.each index _ present).owner owner _ rfl).undecided
  have removes : step normalizeHost world.shared (.owning owner (.removing decision ending))
      .resume = some (world.shared.removePending owner.key owner.pending,
        .owning owner (.publishing decision ending)) := rfl
  obtain ⟨middle, first, shared, _, still⟩ := move_act arriving present removes
  have unset : middle.shared.decision owner.pending = none := by simpa [shared] using undecided
  obtain ⟨after, target, publishes, decided⟩ :
      ∃ after target, step normalizeHost middle.shared
        (.owning owner (.publishing decision ending)) .resume = some (after, target) ∧
          after.decision owner.pending = some decision :=
    publishing_step decision ending unset
  obtain ⟨next, second, rfl, _⟩ := move_act arriving still publishes
  refine ⟨next, ?_, decided, ?_⟩
  · rw [run, foldlM_cons, first, bind_eq_bind, bind_some, foldlM_cons, second]
    rfl
  · intro waiter key waits
    have wakes : step normalizeHost next.shared (.waiting key owner.pending) .resume =
        some (next.shared, .answered decision.toNetworkDecision) := by
      simp [step, advance, decided]
    obtain ⟨last, woken, _, _, answered⟩ := move_act arriving waits wakes
    exact ⟨last, woken, answered⟩

/-- Every interleaving of inline approvals, each with any answers and dropped at any await, grounds
every Allow, keeps standing denials, gives every pending approval one owner and lets a dropped owner
answer those who wait for it and nobody else. -/
theorem network_denials_hold (approved denied : Finset HostApprovalKey)
    (moves : List (Move NetworkPolicyRequest Input))
    (world : World NetworkApprovalService Stage Input)
    (ran : run (step normalizeHost) Stage.arriving
      { shared := { sessionApprovedHosts := approved, sessionDeniedHosts := denied } } moves =
        some world) :
    AllowsGrounded world.history ∧ DenialsHold world.history ∧
      (∀ pending, Open world.shared pending →
        ∃! index : Nat, ∃ stage, world.locals[index]? = some stage ∧ Owns pending stage) ∧
      (∀ key pending, (key, pending) ∈ world.shared.pendingHostApprovals →
        Open world.shared pending) ∧
      DropsClosed world.history ∧ OwnersPublish world.history ∧ Finishes normalizeHost world := by
  have initially : ServiceState
      { sessionApprovedHosts := approved, sessionDeniedHosts := denied } [] :=
    { grounded := atEach_nil _
      denials := atEach_nil _
      drops := atEach_nil _
      publish := atEach_nil _
      denied := fun key stands => by
        obtain ⟨_, _, _, parts, _⟩ := stands
        simp at parts
      decided := by simp
      applied := by simp
      distinct := nodup_nil
      entries := by simp
      addresses := by simp
      fresh := by simp }
  have holds := invariant.holds_of_run initially moves ran
  have covered : Covered Open (fun stage pending => Owns pending stage) world := by
    refine covered_of_run ?_ ?_ moves ran
    · intro service source input after target pending stepped opened
      exact open_owned (transition_of_step stepped) opened
    · rintro pending ⟨below, _⟩
      exact absurd below (Nat.not_lt_zero pending)
  refine ⟨holds.shared.grounded, holds.shared.denials, ?_, ?_, holds.shared.drops,
    holds.shared.publish, finishes holds⟩
  · intro pending opened
    obtain ⟨index, stage, present, owner, phase, owns, address⟩ := covered pending opened
    refine ⟨index, ⟨stage, present, owner, phase, owns, address⟩, ?_⟩
    rintro other ⟨second, located, again, later, owned, same⟩
    by_contra different
    exact (holds.pairs other index second stage different located present).owners again later owner
      phase owned owns (same.trans address.symm)
  · intro key pending member
    obtain ⟨below, undecided, _⟩ := holds.shared.entries key pending member
    exact ⟨below, undecided⟩

end Runs

def fetchRequest : NetworkPolicyRequest :=
  ⟨.httpsConnect, "example.com", 443, some "local", none⟩

def managedTurn : ActiveTurn :=
  ⟨"turn", [⟨"local", .managed⟩], .onRequest⟩

def deniedMoves : List (Move NetworkPolicyRequest Input) :=
  [.enter fetchRequest, .enter fetchRequest,
    .act 0 (.calls []), .act 0 (.turn (some managedTurn)), .act 0 .resume, .act 0 .resume,
    .act 0 .resume, .act 0 .resume,
    .act 1 (.calls []), .act 1 (.turn (some managedTurn)), .act 1 .resume, .act 1 .resume,
    .act 1 .resume, .act 1 .resume,
    .act 0 (.review (.decided (.networkPolicyAmendment ⟨"example.com", .deny⟩))), .act 0 .resume,
    .act 0 .resume, .act 0 (.result true), .act 0 (.proxy true), .act 0 (.result true),
    .act 0 (.result true), .act 0 .resume, .act 0 .resume, .act 0 .resume, .act 0 .resume,
    .act 0 .resume, .act 1 .resume]

theorem denied_request_denies_waiter :
    ∃ world, run (step id) Stage.arriving { shared := {} } deniedMoves = some world ∧
      world.locals = [.answered notAllowed, .answered notAllowed] ∧
      DenialsHold world.history ∧ OwnersPublish world.history := by
  have ran : (run (step id) arriving { shared := {} } deniedMoves).map World.locals =
      some [.answered notAllowed, .answered notAllowed] := by
    rfl
  obtain ⟨world, reached, answers⟩ := map_eq_some_iff.mp ran
  obtain ⟨_, holds, _, _, _, publish, _⟩ := network_denials_hold ∅ ∅ deniedMoves world reached
  exact ⟨world, reached, answers, holds, publish⟩

end OpenInterpreter.NetworkDenials
