import OpenInterpreter.ContextHistory

/-! `reconstruct_history_from_rollout` of `core/src/session/rollout_reconstruction.rs`: a
newest-first pass over turn segments that chooses the base checkpoint and the resume metadata,
then a forward replay of the records after that checkpoint. -/

namespace OpenInterpreter.RolloutReplay

open Rollout ContextHistory List Option

structure ReconstructedWindow where
  number : Nat
  firstId : Option (List Char)
  previousId : Option (List Char)
  id : Option (List Char)
  deriving DecidableEq

inductive TurnReferenceContextItem where
  | neverSet
  | cleared
  | latest (context : TurnContextItem)
  deriving DecidableEq

structure ReplayCheckpoint (State : Type) where
  compacted : CompactedItem
  suffix : List (RolloutItem State)
  deriving DecidableEq

structure ActiveReplaySegment (State : Type) where
  turnId : Option TurnId := none
  countsAsUserTurn : Bool := false
  previousTurnSettings : Option PreviousTurnSettings := none
  referenceContextItem : TurnReferenceContextItem := .neverSet
  worldStateReplay : List (RolloutItem State) := []
  baseCompaction : Option (ReplayCheckpoint State) := none
  window : Option ReconstructedWindow := none
  deriving DecidableEq

structure ReverseReplay (State : Type) where
  baseCompaction : Option (ReplayCheckpoint State) := none
  previousTurnSettings : Option PreviousTurnSettings := none
  referenceContextItem : TurnReferenceContextItem := .neverSet
  worldStateReplay : List (RolloutItem State) := []
  window : Option ReconstructedWindow := none
  pendingRollbackTurns : Nat := 0
  activeSegment : Option (ActiveReplaySegment State) := none
  deriving DecidableEq

structure RolloutReconstruction (Snapshot : Type) where
  history : List ResponseItemEnvelope
  previousTurnSettings : Option PreviousTurnSettings
  referenceContextItem : Option TurnContextItem
  worldStateBaseline : Option Snapshot
  window : ReconstructedWindow
  deriving DecidableEq

variable {State Snapshot : Type} (ops : ReplayOps State Snapshot)

def isCompacted : RolloutItem State → Bool
  | .compacted _ => true
  | _ => false

def isFullWorldState : RolloutItem State → Bool
  | .worldState full _ => full
  | _ => false

def ActiveReplaySegment.hasContextBaseline (segment : ActiveReplaySegment State) : Bool :=
  segment.countsAsUserTurn ||
    (segment.worldStateReplay.takeWhile fun item => !isCompacted item).any isFullWorldState

variable (replay : ReverseReplay State)

/-- `finalize_active_segment` while turns are still to be rolled back. -/
def ReverseReplay.skip (segment : ActiveReplaySegment State) : ReverseReplay State :=
  { replay with
    pendingRollbackTurns :=
      if segment.countsAsUserTurn then replay.pendingRollbackTurns - 1
      else replay.pendingRollbackTurns
    activeSegment := none }

/-- `finalize_active_segment` for a segment that survives. -/
def ReverseReplay.keep (segment : ActiveReplaySegment State) : ReverseReplay State :=
  { replay with
    worldStateReplay := replay.worldStateReplay ++ segment.worldStateReplay
    baseCompaction := replay.baseCompaction.or segment.baseCompaction
    window := replay.window.or segment.window
    previousTurnSettings :=
      if replay.previousTurnSettings.isNone ∧ segment.hasContextBaseline then
        segment.previousTurnSettings
      else replay.previousTurnSettings
    referenceContextItem :=
      if replay.referenceContextItem = .neverSet ∧
          (segment.hasContextBaseline ∨ segment.referenceContextItem = .cleared) then
        segment.referenceContextItem
      else replay.referenceContextItem
    activeSegment := none }

def ReverseReplay.finalize (segment : ActiveReplaySegment State) : ReverseReplay State :=
  if 0 < replay.pendingRollbackTurns then replay.skip segment else replay.keep segment

def ReverseReplay.segment : ActiveReplaySegment State :=
  replay.activeSegment.getD {}

def ReverseReplay.updated (segment : ActiveReplaySegment State) : ReverseReplay State :=
  { replay with activeSegment := some segment }

/-- The `Compacted` arm; `suffix` is what follows the record. -/
def ActiveReplaySegment.compact (compacted : CompactedItem) (suffix : List (RolloutItem State))
    (segment : ActiveReplaySegment State) : ActiveReplaySegment State :=
  { segment with
    worldStateReplay := segment.worldStateReplay ++ [.compacted compacted]
    window := segment.window.or <| compacted.windowNumber.map fun number =>
      { number
        firstId := compacted.firstWindowId.bind ops.parseUuidV7
        previousId := compacted.previousWindowId.bind ops.parseUuidV7
        id := compacted.windowId.bind ops.parseUuidV7 }
    referenceContextItem :=
      if segment.referenceContextItem = .neverSet then .cleared else segment.referenceContextItem
    baseCompaction := segment.baseCompaction.or <|
      compacted.replacementHistory.map fun _ => ⟨compacted, suffix⟩ }

def ActiveReplaySegment.context (context : TurnContextItem)
    (segment : ActiveReplaySegment State) : ActiveReplaySegment State :=
  let turnId := segment.turnId.or context.turnId
  if turnIdsAreCompatible turnId context.turnId then
    { segment with
      turnId
      previousTurnSettings := some context.settings
      referenceContextItem :=
        if segment.referenceContextItem = .neverSet then .latest context
        else segment.referenceContextItem }
  else { segment with turnId }

def ActiveReplaySegment.observe (segment : ActiveReplaySegment State) (item : RolloutItem State)
    (suffix : List (RolloutItem State)) : ActiveReplaySegment State :=
  match item with
  | .compacted compacted => segment.compact ops compacted suffix
  | .event (.turnComplete turnId) => { segment with turnId := segment.turnId.or (some turnId) }
  | .event (.turnAborted turnId) => { segment with turnId := segment.turnId.or turnId }
  | .event (.userMessage _) => { segment with countsAsUserTurn := true }
  | .turnContext context => segment.context context
  | .worldState full state =>
    { segment with worldStateReplay := segment.worldStateReplay ++ [.worldState full state] }
  | .responseItem response =>
    { segment with
      countsAsUserTurn := segment.countsAsUserTurn || isUserTurnBoundary ops response.item }
  | .interAgentCommunication .. => { segment with countsAsUserTurn := true }
  | _ => segment

def ReverseReplay.observe (replay : ReverseReplay State) (item : RolloutItem State)
    (suffix : List (RolloutItem State)) : ReverseReplay State :=
  match item with
  | .event (.threadRolledBack numTurns) =>
    { replay with pendingRollbackTurns := replay.pendingRollbackTurns + numTurns }
  | .event (.turnStarted turnId) =>
    match replay.activeSegment with
    | some segment =>
      if turnIdsAreCompatible segment.turnId (some turnId) then replay.finalize segment
      else replay
    | none => replay
  | .event (.turnAborted none) =>
    match replay.activeSegment with
    | some segment => replay.updated (segment.observe ops item suffix)
    | none => replay
  | .event (.itemCompleted ..) | .event (.other _) | .sessionMeta _ | .aside
  | .tokenUsageRecord _ | .securityRiskScore | .interAgentCommunicationMetadata => replay
  | item => replay.updated (replay.segment.observe ops item suffix)

def ReverseReplay.settled : Bool :=
  replay.baseCompaction.isSome && replay.previousTurnSettings.isSome &&
    decide (replay.referenceContextItem ≠ .neverSet)

def reverseReplay : List (RolloutItem State) → ReverseReplay State
  | [] => {}
  | item :: suffix =>
    let replay := reverseReplay suffix
    if replay.settled then replay else replay.observe ops item suffix

def ReverseReplay.closed : ReverseReplay State :=
  match replay.activeSegment with
  | some segment => replay.finalize segment
  | none => replay

def replayItem (history : List ResponseItemEnvelope) :
    RolloutItem State → List ResponseItemEnvelope
  | .responseItem response => recordItem ops history response
  | .interAgentCommunication author recipient content turnId =>
    recordItem ops history (toModelInputItem author recipient content turnId)
  | .compacted compacted =>
    if compacted.replacementHistory.isNone then
      ops.buildCompactedHistory history compacted.message
    else history
  | .event (.threadRolledBack numTurns) => dropLastNUserTurns ops numTurns history
  | _ => history

def replayItems (history : List ResponseItemEnvelope) (items : List (RolloutItem State)) :
    List ResponseItemEnvelope :=
  items.foldl (replayItem ops) history

def replayFrom (base : Option (ReplayCheckpoint State)) (items : List (RolloutItem State)) :
    List ResponseItemEnvelope :=
  match base with
  | some checkpoint =>
    replayItems ops (checkpoint.compacted.replacementHistory.getD []) checkpoint.suffix
  | none => replayItems ops [] items

variable (items : List (RolloutItem State))

def sawLegacyCompaction : Bool :=
  items.any fun item =>
    match item with
    | .compacted compacted => compacted.replacementHistory.isNone
    | _ => false

def TurnReferenceContextItem.toOption : TurnReferenceContextItem → Option TurnContextItem
  | .latest context => some context
  | .neverSet | .cleared => none

def replayWorldState (baseline : Option Snapshot) : RolloutItem State → Option Snapshot
  | .worldState true state => some (ops.snapshotFrom state)
  | .worldState false state => baseline.map fun snapshot => ops.applyMergePatch snapshot state
  | .compacted _ => none
  | _ => baseline

def initialWindow : Option ReconstructedWindow :=
  if items.any (fun item =>
      match item with
      | .compacted compacted => compacted.windowNumber.isNone
      | _ => false) then none
  else
    items.findSome? fun item =>
      match item with
      | .sessionMeta contextWindowId =>
        (contextWindowId.bind ops.parseUuidV7).map fun id => ⟨0, some id, none, some id⟩
      | _ => none

def reconstructHistoryFromRollout : RolloutReconstruction Snapshot :=
  let replay := (reverseReplay ops items).closed
  let replayed := replay.baseCompaction.elim items ReplayCheckpoint.suffix
  { history := replayFrom ops replay.baseCompaction items
    previousTurnSettings := replay.previousTurnSettings
    referenceContextItem :=
      if sawLegacyCompaction replayed then none else replay.referenceContextItem.toOption
    worldStateBaseline := replay.worldStateReplay.reverse.foldl (replayWorldState ops) none
    window := (replay.window.or (initialWindow ops items)).getD
      ⟨items.countP isCompacted, none, none, none⟩ }

theorem reverseReplay_cons (item : RolloutItem State) {suffix : List (RolloutItem State)}
    (unsettled : (reverseReplay ops suffix).settled = false) :
    reverseReplay ops (item :: suffix) = (reverseReplay ops suffix).observe ops item suffix := by
  simp [reverseReplay, unsettled]

theorem reverseReplay_settled (older suffix : List (RolloutItem State))
    (settled : (reverseReplay ops suffix).settled = true) :
    reverseReplay ops (older ++ suffix) = reverseReplay ops suffix := by
  induction older with
  | nil => rfl
  | cons item older ih => simp [reverseReplay, ih, settled]

variable (replay : ReverseReplay State) (segment : ActiveReplaySegment State)

@[simp]
theorem segment_updated : (replay.updated segment).segment = segment := rfl

open ReverseReplay

@[simp]
theorem closed_finalize : (replay.finalize segment).closed = replay.finalize segment := by
  have inactive : (replay.finalize segment).activeSegment = none := by
    simp only [finalize]
    split <;> rfl
  simp [closed, inactive]

theorem finalize_keep
    (pending : replay.pendingRollbackTurns = 0) : replay.finalize segment = replay.keep segment :=
  if_neg (by omega)

theorem keep_settings (settings : replay.previousTurnSettings.isSome = true) :
    (replay.keep segment).previousTurnSettings = replay.previousTurnSettings := by
  obtain ⟨value, held⟩ := isSome_iff_exists.mp settings
  simp [keep, held]

theorem keep_reference (reference : replay.referenceContextItem ≠ .neverSet) :
    (replay.keep segment).referenceContextItem = replay.referenceContextItem := by
  simp [keep, reference]

theorem keep_empty (inactive : replay.activeSegment = none) : replay.keep {} = replay := by
  cases replay
  cases inactive
  simp [keep, ActiveReplaySegment.hasContextBaseline]

def StaysInSegment : RolloutItem State → Prop
  | .event (.threadRolledBack _) | .event (.turnStarted _) => False
  | _ => True

theorem staysInSegment_or (item : RolloutItem State) :
    StaysInSegment item ∨ (∃ turnId, item = .event (.turnStarted turnId)) ∨
      ∃ numTurns, item = .event (.threadRolledBack numTurns) := by
  cases item with
  | event message =>
    cases message with
    | turnStarted turnId => exact .inr (.inl ⟨turnId, rfl⟩)
    | threadRolledBack numTurns => exact .inr (.inr ⟨numTurns, rfl⟩)
    | _ => exact .inl trivial
  | _ => exact .inl trivial

theorem observe_staysInSegment {item : RolloutItem State} (suffix : List (RolloutItem State))
    (stays : StaysInSegment item) :
    ∃ active, replay.observe ops item suffix = { replay with activeSegment := active } ∧
      active.getD {} = replay.segment.observe ops item suffix ∧
      (replay.activeSegment.isSome = true → active.isSome = true) := by
  have idle : ∃ active, replay = { replay with activeSegment := active } ∧
      active.getD {} = replay.segment ∧
      (replay.activeSegment.isSome = true → active.isSome = true) :=
    ⟨replay.activeSegment, rfl, rfl, id⟩
  have updates : ∀ segment : ActiveReplaySegment State,
      ∃ active, replay.updated segment = { replay with activeSegment := active } ∧
        active.getD {} = segment ∧ (replay.activeSegment.isSome = true → active.isSome = true) :=
    fun segment => ⟨some segment, rfl, rfl, fun _ => rfl⟩
  cases item with
  | event message =>
    cases message with
    | threadRolledBack | turnStarted => exact stays.elim
    | turnAborted turnId =>
      cases turnId with
      | some turnId => exact updates _
      | none =>
        cases active : replay.activeSegment with
        | none =>
          refine ⟨none, ?_, ?_, nofun⟩
          · simp only [observe, active]
            rw [← active]
          · simp only [ReverseReplay.segment, active]
            rfl
        | some segment =>
          refine ⟨some (segment.observe ops (.event (.turnAborted none)) suffix), ?_, ?_,
            fun _ => rfl⟩
          · simp [observe, active, updated]
          · simp [ReverseReplay.segment, active]
    | turnComplete | userMessage => exact updates _
    | itemCompleted | other => exact idle
  | compacted compacted => exact updates _
  | turnContext context => exact updates _
  | worldState full state => exact updates _
  | responseItem response => exact updates _
  | interAgentCommunication author recipient content turnId => exact updates _
  | _ => exact idle

def turnNamed : RolloutItem State → Option TurnId
  | .event (.turnStarted turnId) => some turnId
  | .event (.turnComplete turnId) => some turnId
  | .event (.turnAborted turnId) => turnId
  | .turnContext context => context.turnId
  | _ => none

theorem turnId_observe (item : RolloutItem State)
    (suffix : List (RolloutItem State)) (stays : StaysInSegment item) :
    (segment.observe ops item suffix).turnId = segment.turnId.or (turnNamed item) := by
  cases item with
  | turnContext context =>
    simp only [ActiveReplaySegment.observe, ActiveReplaySegment.context]
    split <;> rfl
  | event message =>
    cases message with
    | turnStarted turnId => exact stays.elim
    | _ => simp [ActiveReplaySegment.observe, turnNamed]
  | _ => simp [ActiveReplaySegment.observe, ActiveReplaySegment.compact, turnNamed]

def CompleteCheckpoint : RolloutItem State → Prop
  | .compacted compacted =>
    compacted.replacementHistory.isSome = true ∧ compacted.windowNumber.isSome = true
  | _ => True

structure CheckpointsKept : Prop where
  base : replay.baseCompaction.isSome = true → replay.window.isSome = true
  segment : replay.segment.worldStateReplay.any isCompacted = replay.segment.baseCompaction.isSome
  window : replay.segment.baseCompaction.isSome = true → replay.segment.window.isSome = true

theorem checkpoint_observe (item : RolloutItem State)
    (suffix : List (RolloutItem State)) (complete : CompleteCheckpoint item)
    (held : segment.worldStateReplay.any isCompacted = segment.baseCompaction.isSome)
    (window : segment.baseCompaction.isSome = true → segment.window.isSome = true) :
    (segment.observe ops item suffix).worldStateReplay.any isCompacted =
        (segment.observe ops item suffix).baseCompaction.isSome ∧
      ((segment.observe ops item suffix).baseCompaction.isSome = true →
        (segment.observe ops item suffix).window.isSome = true) := by
  cases item with
  | compacted compacted =>
    obtain ⟨history, number⟩ := complete
    simp [ActiveReplaySegment.observe, ActiveReplaySegment.compact, isCompacted, history, number]
  | turnContext context =>
    simp only [ActiveReplaySegment.observe, ActiveReplaySegment.context]
    split <;> exact ⟨held, window⟩
  | worldState full state =>
    simp only [ActiveReplaySegment.observe, any_append, any_cons, any_nil,
      isCompacted, Bool.or_false]
    exact ⟨held, window⟩
  | event message => cases message <;> exact ⟨held, window⟩
  | _ => exact ⟨held, window⟩

variable {replay}

theorem CheckpointsKept.finalize (kept : CheckpointsKept replay)
    {segment : ActiveReplaySegment State} (active : replay.activeSegment = some segment) :
    CheckpointsKept (replay.finalize segment) := by
  have current : replay.segment = segment := by
    simp [ReverseReplay.segment, active]
  have window := kept.window
  rw [current] at window
  unfold ReverseReplay.finalize
  split
  · exact ⟨kept.base, rfl, nofun⟩
  · refine ⟨?_, rfl, nofun⟩
    simp only [keep, isSome_or, Bool.or_eq_true]
    exact Or.imp kept.base window

theorem CheckpointsKept.closed (kept : CheckpointsKept replay) : CheckpointsKept replay.closed := by
  unfold ReverseReplay.closed
  split
  · rename_i segment active
    exact kept.finalize active
  · exact kept

theorem closed_base (based : replay.baseCompaction.isSome = true) :
    replay.closed.baseCompaction.isSome = true := by
  unfold closed
  split
  · unfold finalize
    split
    · exact based
    · simp [keep, based]
  · exact based

theorem checkpointsKept_reverseReplay {items : List (RolloutItem State)}
    (complete : ∀ item ∈ items, CompleteCheckpoint item) :
    CheckpointsKept (reverseReplay ops items) := by
  induction items with
  | nil => exact ⟨nofun, rfl, nofun⟩
  | cons item suffix ih =>
    obtain ⟨head, rest⟩ := forall_mem_cons.mp complete
    have kept := ih rest
    cases settled : (reverseReplay ops suffix).settled with
    | true =>
      rw [show reverseReplay ops (item :: suffix) = reverseReplay ops suffix from
        reverseReplay_settled ops [item] suffix settled]
      exact kept
    | false =>
      rw [reverseReplay_cons ops item settled]
      rcases staysInSegment_or item with stays | ⟨turnId, rfl⟩ | ⟨numTurns, rfl⟩
      · obtain ⟨active, observed, segmentEq, _⟩ :=
          observe_staysInSegment ops (reverseReplay ops suffix) suffix stays
        obtain ⟨held, window⟩ := checkpoint_observe ops _ item suffix head kept.segment kept.window
        rw [observed]
        rw [← segmentEq] at held window
        exact ⟨kept.base, held, window⟩
      · unfold observe
        dsimp only
        split
        · rename_i segment active
          split
          · exact kept.finalize active
          · exact kept
        · exact kept
      · exact ⟨kept.base, kept.segment, kept.window⟩

def plainOps : ReplayOps Unit Unit where
  isContextualUserMessageContent _ := false
  isContextualDevMessageContent _ := false
  isMessageContent _ := false
  rebuiltAfterRollback _ := false
  truncateOutput _ output := output
  parseUuidV7 := some
  buildCompactedHistory history _ := history
  snapshotFrom _ := ()
  applyMergePatch _ _ := ()

def userText (text : List Char) : RolloutItem Unit :=
  .responseItem ⟨.message .user [.inputText text], none, false, none⟩

def contextOf (turnId : TurnId) (model : List Char) : RolloutItem Unit :=
  .turnContext ⟨some turnId, model, none, none, []⟩

end OpenInterpreter.RolloutReplay
