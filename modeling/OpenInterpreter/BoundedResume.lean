import Mathlib.Data.List.TakeWhile
import OpenInterpreter.RolloutReplay

/-! `ModelContextScan` of `rollout/src/model_context.rs`: the newest-first scan that stops once
the records read are enough to resume from, and when resuming from them is resuming from the
whole rollout. -/

namespace OpenInterpreter.BoundedResume

open Rollout ContextHistory RolloutReplay List Option ReverseReplay

structure ActiveTurnSegment where
  turnId : Option TurnId := none
  hasUserTurn : Bool := false
  hasTurnContext : Bool := false
  hasFullWorldState : Bool := false
  sawCompaction : Bool := false
  deriving DecidableEq

structure ModelContextScan (State : Type) where
  itemsNewestFirst : List (RolloutItem State) := []
  sawCompaction : Bool := false
  sawCompletedTurnContext : Bool := false
  mustScanToStart : Bool := false
  activeSegment : ActiveTurnSegment := {}
  deriving DecidableEq

inductive ModelContextScanProgress where
  | continue
  | complete
  deriving DecidableEq

variable {State Snapshot : Type} (ops : ReplayOps State Snapshot)

def responseItemCountsAsUserTurn : ResponseItem → Bool
  | .agentMessage .. => true
  | .message .assistant content => ops.isMessageContent content
  | _ => false

variable (scan : ModelContextScan State)

def ModelContextScan.finalizeActiveSegment : ModelContextScan State :=
  { scan with
    sawCompletedTurnContext := scan.sawCompletedTurnContext ||
      (scan.activeSegment.hasTurnContext &&
        (scan.activeSegment.hasUserTurn || scan.activeSegment.hasFullWorldState))
    activeSegment := {} }

def ModelContextScan.hasBoundedCutoff : Bool :=
  !scan.mustScanToStart && scan.sawCompaction && scan.sawCompletedTurnContext

/-- The arms of `observe` that only change the active segment. -/
def ActiveTurnSegment.observe (segment : ActiveTurnSegment) :
    RolloutItem State → ActiveTurnSegment
  | .compacted _ => { segment with sawCompaction := true }
  | .event (.itemCompleted turnId isUserMessage) =>
    let named := { segment with turnId := segment.turnId.or (some turnId) }
    if turnIdsAreCompatible named.turnId (some turnId) then
      { named with hasUserTurn := named.hasUserTurn || isUserMessage }
    else named
  | .event (.turnComplete turnId) => { segment with turnId := segment.turnId.or (some turnId) }
  | .event (.turnAborted turnId) => { segment with turnId := segment.turnId.or turnId }
  | .turnContext context =>
    let named := { segment with turnId := segment.turnId.or context.turnId }
    if turnIdsAreCompatible named.turnId context.turnId then
      { named with hasTurnContext := true }
    else named
  | .responseItem response =>
    { segment with
      hasUserTurn := segment.hasUserTurn || responseItemCountsAsUserTurn ops response.item }
  | .interAgentCommunication .. => { segment with hasUserTurn := true }
  | .event (.userMessage _) => { segment with hasUserTurn := true }
  | .worldState full _ =>
    { segment with
      hasFullWorldState := segment.hasFullWorldState || (full && !segment.sawCompaction) }
  | _ => segment

def ModelContextScan.observe (scan : ModelContextScan State) (item : RolloutItem State) :
    ModelContextScan State :=
  if scan.mustScanToStart then scan
  else
    match item with
    | .compacted compacted =>
      if compacted.replacementHistory.isNone ∨ compacted.windowNumber.isNone then
        { scan with mustScanToStart := true }
      else
        { scan with
          sawCompaction := true
          activeSegment := scan.activeSegment.observe ops item }
    | .event (.threadRolledBack _) => { scan with mustScanToStart := true }
    | .event (.turnStarted turnId) =>
      if turnIdsAreCompatible scan.activeSegment.turnId (some turnId) then
        scan.finalizeActiveSegment
      else scan
    | item => { scan with activeSegment := scan.activeSegment.observe ops item }

def ModelContextScan.push (item : RolloutItem State) :
    ModelContextScan State × ModelContextScanProgress :=
  let scan := scan.observe ops item
  let progress := if scan.hasBoundedCutoff then .complete else .continue
  ({ scan with itemsNewestFirst := scan.itemsNewestFirst ++ [item] }, progress)

def ModelContextScan.finish (sessionMeta : RolloutItem State) : List (RolloutItem State) :=
  if scan.hasBoundedCutoff then sessionMeta :: scan.itemsNewestFirst.reverse
  else scan.itemsNewestFirst.reverse

def readOlder (scan : ModelContextScan State) :
    List (RolloutItem State) → ModelContextScan State
  | [] => scan
  | item :: older =>
    match scan.push ops item with
    | (scan, .complete) => scan
    | (scan, .continue) => readOlder scan older

variable (rollout : List (RolloutItem State))

def boundedItems (sessionMeta : RolloutItem State) : List (RolloutItem State) :=
  (readOlder ops {} rollout.reverse).finish sessionMeta

/-! ### A pass that has reached its checkpoint -/

structure Anchored (replay : ReverseReplay State) (segment : ActiveReplaySegment State) :
    Prop where
  active : replay.activeSegment = some segment
  pending : replay.pendingRollbackTurns = 0
  unbased : replay.baseCompaction = none
  settings : replay.previousTurnSettings.isSome = true
  reference : replay.referenceContextItem ≠ .neverSet
  base : segment.baseCompaction.isSome = true
  window : segment.window.isSome = true
  compaction : segment.worldStateReplay.any isCompacted = true

structure Continues (segment later : ActiveReplaySegment State) : Prop where
  base : later.baseCompaction = segment.baseCompaction
  window : later.window = segment.window
  world : ∃ older, later.worldStateReplay = segment.worldStateReplay ++ older

theorem Continues.refl (segment : ActiveReplaySegment State) : Continues segment segment :=
  ⟨rfl, rfl, [], (append_nil _).symm⟩

theorem Continues.trans {first second third : ActiveReplaySegment State}
    (newer : Continues first second) (older : Continues second third) : Continues first third := by
  obtain ⟨before, beforeEq⟩ := newer.world
  obtain ⟨after, afterEq⟩ := older.world
  constructor
  · rw [older.base, newer.base]
  · rw [older.window, newer.window]
  · exact ⟨before ++ after, by rw [afterEq, beforeEq, append_assoc]⟩

variable {segment : ActiveReplaySegment State} {replay : ReverseReplay State}
    {item : RolloutItem State}

theorem Continues.observe (item : RolloutItem State) (suffix : List (RolloutItem State))
    (base : segment.baseCompaction.isSome = true) (window : segment.window.isSome = true) :
    Continues segment (segment.observe ops item suffix) := by
  have untouched : ∃ older, segment.worldStateReplay = segment.worldStateReplay ++ older :=
    ⟨[], (append_nil _).symm⟩
  cases item with
  | compacted compacted =>
    constructor
    · exact or_of_isSome base
    · exact or_of_isSome window
    · exact ⟨[.compacted compacted], rfl⟩
  | turnContext context =>
    simp only [ActiveReplaySegment.observe, ActiveReplaySegment.context]
    split <;> exact ⟨rfl, rfl, untouched⟩
  | worldState full state => exact ⟨rfl, rfl, [.worldState full state], rfl⟩
  | event message => cases message <;> exact ⟨rfl, rfl, untouched⟩
  | _ => exact ⟨rfl, rfl, untouched⟩

section

variable (anchored : Anchored replay segment)
include anchored

theorem Anchored.observe (item : RolloutItem State) (suffix : List (RolloutItem State))
    (unrolled : ∀ numTurns, item ≠ .event (.threadRolledBack numTurns)) :
    (∃ later, Continues segment later ∧ replay.observe ops item suffix = replay.updated later) ∨
      replay.observe ops item suffix = replay.finalize segment := by
  have current : replay.segment = segment := by
    simp [ReverseReplay.segment, anchored.active]
  rcases staysInSegment_or item with stays | ⟨turnId, rfl⟩ | ⟨numTurns, rfl⟩
  · obtain ⟨active, observed, segmentEq, remains⟩ := observe_staysInSegment ops replay suffix stays
    obtain ⟨later, rfl⟩ := isSome_iff_exists.mp
      (remains (by rw [anchored.active]; rfl))
    left
    refine ⟨later, ?_, observed⟩
    rw [getD_some, current] at segmentEq
    rw [segmentEq]
    exact .observe ops item suffix anchored.base anchored.window
  · simp only [ReverseReplay.observe, anchored.active]
    split
    · exact .inr rfl
    · left
      refine ⟨segment, .refl segment, ?_⟩
      simp [updated, ← anchored.active]
  · exact absurd rfl (unrolled numTurns)

theorem Anchored.later {later : ActiveReplaySegment State}
    (continues : Continues segment later) : Anchored (replay.updated later) later := by
  obtain ⟨older, world⟩ := continues.world
  constructor
  · rfl
  · exact anchored.pending
  · exact anchored.unbased
  · exact anchored.settings
  · exact anchored.reference
  · rw [continues.base]
    exact anchored.base
  · rw [continues.window]
    exact anchored.window
  · rw [world, any_append, anchored.compaction, Bool.true_or]

theorem Anchored.unsettled : replay.settled = false := by
  simp [settled, anchored.unbased]

theorem Anchored.finalize_settled : (replay.finalize segment).settled = true := by
  have base : (replay.keep segment).baseCompaction = segment.baseCompaction := by
    simp [keep, anchored.unbased]
  rw [finalize_keep _ _ anchored.pending]
  simp [settled, base, keep_settings _ _ anchored.settings, keep_reference _ _ anchored.reference,
    anchored.base, anchored.settings, anchored.reference]

end

variable {suffix : List (RolloutItem State)}

theorem Anchored.closed_older
    (anchored : Anchored (reverseReplay ops suffix) segment) (older : List (RolloutItem State))
    (unrolled : ∀ numTurns, .event (.threadRolledBack numTurns) ∉ older) :
    ∃ later, Continues segment later ∧ (reverseReplay ops (older ++ suffix)).closed =
        (reverseReplay ops suffix).finalize later := by
  suffices reached : ∃ later, Continues segment later ∧
      (reverseReplay ops (older ++ suffix) = (reverseReplay ops suffix).updated later ∨
        reverseReplay ops (older ++ suffix) = (reverseReplay ops suffix).finalize later) by
    obtain ⟨later, continues, reached | reached⟩ := reached
    · exact ⟨later, continues, by rw [reached]; rfl⟩
    · exact ⟨later, continues, by rw [reached, closed_finalize]⟩
  induction older with
  | nil =>
    refine ⟨segment, .refl segment, .inl ?_⟩
    simp [updated, ← anchored.active]
  | cons item older ih =>
    rw [cons_append]
    simp only [mem_cons, not_or] at unrolled
    obtain ⟨later, continues, reached | reached⟩ := ih fun numTurns => (unrolled numTurns).2
    · have held := anchored.later continues
      rw [← reached] at held
      rw [reverseReplay_cons ops item held.unsettled]
      rcases held.observe ops item _ fun numTurns equal => (unrolled numTurns).1 equal.symm with
        ⟨next, further, observed⟩ | observed
      · exact ⟨next, continues.trans further, .inl (by rw [observed, reached]; rfl)⟩
      · exact ⟨later, continues, .inr (by rw [observed, reached]; rfl)⟩
    · have settled := (anchored.later continues).finalize_settled
      have stays := reverseReplay_settled ops [item] (older ++ suffix)
        (by rw [reached]; exact settled)
      exact ⟨later, continues, .inr (by rw [← reached, ← stays]; rfl)⟩

/-! ### What is resumed -/

variable (items : List (RolloutItem State))

theorem replayWorldState_reset
    (compaction : items.any isCompacted = true) (first second : Option Snapshot) :
    items.foldl (replayWorldState ops) first = items.foldl (replayWorldState ops) second := by
  induction items generalizing first second with
  | nil => cases compaction
  | cons item items ih =>
    rw [any_cons, Bool.or_eq_true] at compaction
    cases compaction with
    | inl isCompaction =>
      cases item with
      | compacted compacted => rfl
      | _ => cases isCompaction
    | inr later => exact ih later _ _

theorem reconstruct_congr {first second : List (RolloutItem State)} {one two : ReverseReplay State}
    (firstClosed : (reverseReplay ops first).closed = one)
    (secondClosed : (reverseReplay ops second).closed = two)
    (base : one.baseCompaction = two.baseCompaction) (based : one.baseCompaction.isSome = true)
    (window : one.window = two.window) (windowed : one.window.isSome = true)
    (settings : one.previousTurnSettings = two.previousTurnSettings)
    (reference : one.referenceContextItem = two.referenceContextItem)
    (world : one.worldStateReplay.reverse.foldl (replayWorldState ops) none =
      two.worldStateReplay.reverse.foldl (replayWorldState ops) none) :
    reconstructHistoryFromRollout ops first = reconstructHistoryFromRollout ops second := by
  obtain ⟨checkpoint, held⟩ := isSome_iff_exists.mp based
  obtain ⟨found, windowHeld⟩ := isSome_iff_exists.mp windowed
  simp [reconstructHistoryFromRollout, firstClosed, secondClosed, ← base, ← window, ← settings,
    ← reference, ← world, held, windowHeld, replayFrom]

theorem Anchored.reconstruct_older
    (anchored : Anchored (reverseReplay ops suffix) segment) (older : List (RolloutItem State))
    (unrolled : ∀ numTurns, .event (.threadRolledBack numTurns) ∉ older) :
    reconstructHistoryFromRollout ops (older ++ suffix) =
      reconstructHistoryFromRollout ops suffix := by
  obtain ⟨later, continues, closed⟩ := anchored.closed_older ops older unrolled
  have still : (reverseReplay ops suffix).closed = (reverseReplay ops suffix).keep segment := by
    simp [ReverseReplay.closed, anchored.active, finalize_keep _ _ anchored.pending]
  rw [finalize_keep _ _ anchored.pending] at closed
  apply reconstruct_congr ops closed still
  · simp [keep, continues.base]
  · simp [keep, continues.base, anchored.base]
  · simp [keep, continues.window]
  · simp [keep, continues.window, anchored.window]
  · rw [keep_settings _ _ anchored.settings, keep_settings _ _ anchored.settings]
  · rw [keep_reference _ _ anchored.reference, keep_reference _ _ anchored.reference]
  · obtain ⟨behind, world⟩ := continues.world
    simp only [keep, world, reverse_append, foldl_append]
    rw [replayWorldState_reset ops segment.worldStateReplay.reverse
      (by rw [any_reverse]; exact anchored.compaction) _ none]

/-! ### The scan against the pass -/

def itemNamed : RolloutItem State → Option TurnId
  | .event (.itemCompleted turnId _) => some turnId
  | _ => none

theorem itemNamed_eq_some {turnId : TurnId} (named : itemNamed item = some turnId) :
    ∃ isUserMessage, item = .event (.itemCompleted turnId isUserMessage) := by
  cases item with
  | event message =>
    cases message with
    | itemCompleted completed isUserMessage =>
      cases named
      exact ⟨isUserMessage, rfl⟩
    | _ => cases named
  | _ => cases named

def opensTurn : RolloutItem State → Bool
  | .event (.turnStarted _) => true
  | _ => false

def startsTurn (turnId : TurnId) : RolloutItem State → Bool
  | .event (.turnStarted started) => decide (started = turnId)
  | _ => false

def HasBoundary (items : List (RolloutItem State)) : Prop :=
  ∃ response, .responseItem response ∈ items ∧ isUserTurnBoundary ops response.item = true

variable (segment : ActiveTurnSegment)

theorem scan_turnId_observe (stays : StaysInSegment item) :
    (segment.observe ops item).turnId =
      segment.turnId.or ((itemNamed item).or (turnNamed item)) := by
  cases item with
  | turnContext context =>
    simp only [ActiveTurnSegment.observe]
    split <;> rfl
  | event message =>
    cases message with
    | turnStarted turnId => exact stays.elim
    | itemCompleted turnId isUserMessage =>
      simp only [ActiveTurnSegment.observe]
      split <;> rfl
    | _ => simp [ActiveTurnSegment.observe, itemNamed, turnNamed]
  | _ => simp [ActiveTurnSegment.observe, itemNamed, turnNamed]

theorem scan_observe_seen (item : RolloutItem State) :
    (segment.observe ops item).sawCompaction = (isCompacted item || segment.sawCompaction) ∧
      (segment.observe ops item).hasFullWorldState =
        (segment.hasFullWorldState || (isFullWorldState item && !segment.sawCompaction)) := by
  cases item with
  | turnContext context =>
    simp only [ActiveTurnSegment.observe]
    split <;> simp [isCompacted, isFullWorldState]
  | event message =>
    cases message with
    | itemCompleted turnId isUserMessage =>
      simp only [ActiveTurnSegment.observe]
      split <;> simp [isCompacted, isFullWorldState]
    | _ => simp [ActiveTurnSegment.observe, isCompacted, isFullWorldState]
  | _ => simp [ActiveTurnSegment.observe, isCompacted, isFullWorldState]

theorem worldStateReplay_observe (active : ActiveReplaySegment State) (item : RolloutItem State)
    (suffix : List (RolloutItem State)) :
    ∃ read, (active.observe ops item suffix).worldStateReplay = active.worldStateReplay ++ read ∧
      read.any isCompacted = isCompacted item ∧
      read.any isFullWorldState = isFullWorldState item := by
  have nothing : active.worldStateReplay = active.worldStateReplay ++ [] := (append_nil _).symm
  cases item with
  | compacted compacted => exact ⟨[.compacted compacted], rfl, rfl, rfl⟩
  | worldState full state => exact ⟨[.worldState full state], rfl, rfl, Bool.or_false _⟩
  | turnContext context =>
    simp only [ActiveReplaySegment.observe, ActiveReplaySegment.context]
    split <;> exact ⟨[], nothing, rfl, rfl⟩
  | event message => cases message <;> exact ⟨[], nothing, rfl, rfl⟩
  | _ => exact ⟨[], nothing, rfl, rfl⟩

theorem boundary_of_counts {item : ResponseItem}
    (counts : responseItemCountsAsUserTurn ops item = true) :
    isUserTurnBoundary ops item = true := by
  cases item with
  | agentMessage author recipient content => rfl
  | message role content =>
    cases role with
    | assistant => exact counts
    | _ => cases counts
  | _ => cases counts

theorem or_of_compatible {named : Option TurnId} {turnId : TurnId}
    (compatible : turnIdsAreCompatible (named.or (some turnId)) (some turnId) = true) :
    named.or (some turnId) = some turnId := by
  cases named with
  | none => rfl
  | some name => rw [some_or, of_decide_eq_true compatible]

/-- What the scan believes of its segment holds of the segment of the pass, or will hold before
an older record closes it. `older` is newest first, `newer` oldest first. -/
structure SegmentsAgree (older newer : List (RolloutItem State)) (segment : ActiveTurnSegment)
    (active : ActiveReplaySegment State) : Prop where
  named : active.turnId = segment.turnId ∨
    active.turnId = none ∧ ∃ turnId, segment.turnId = some turnId ∧
      ∀ name, older.findSome? turnNamed = some name → name = turnId
  user : segment.hasUserTurn = true → active.countsAsUserTurn = true ∨
    ∃ turnId, segment.turnId = some turnId ∧ (older.any (startsTurn turnId) = true →
        HasBoundary ops (older.takeWhile fun item => !startsTurn turnId item))
  boundary : HasBoundary ops (newer.takeWhile fun item => !opensTurn item) →
    active.countsAsUserTurn = true
  context : segment.hasTurnContext = true →
    active.previousTurnSettings.isSome = true ∧ active.referenceContextItem ≠ .neverSet
  world : segment.hasFullWorldState = true →
    (active.worldStateReplay.takeWhile fun item => !isCompacted item).any isFullWorldState = true
  compaction : segment.sawCompaction = active.worldStateReplay.any isCompacted

def Promised (older : List (RolloutItem State)) (segment : ActiveTurnSegment)
    (active : ActiveReplaySegment State) : Prop :=
  active.countsAsUserTurn = true ∨ ∃ turnId, segment.turnId = some turnId ∧
    (older.any (startsTurn turnId) = true →
      HasBoundary ops (older.takeWhile fun item => !startsTurn turnId item))

def Owned (older : List (RolloutItem State)) (segment : ActiveTurnSegment)
    (item : RolloutItem State) : Prop :=
  ∀ turnId, itemNamed item = some turnId → segment.turnId = none →
    ∀ name, older.findSome? turnNamed = some name → name = turnId

def Accompanied (older newer : List (RolloutItem State)) (item : RolloutItem State) : Prop :=
  ∀ turnId, item = .event (.itemCompleted turnId true) → older.any (startsTurn turnId) = true →
    HasBoundary ops (older.takeWhile fun item => !startsTurn turnId item) ∨
      HasBoundary ops (newer.takeWhile fun item => !opensTurn item)

theorem counts_observe {active : ActiveReplaySegment State} (item : RolloutItem State)
    (suffix : List (RolloutItem State)) (counts : active.countsAsUserTurn = true) :
    (active.observe ops item suffix).countsAsUserTurn = true := by
  cases item with
  | turnContext context =>
    simp only [ActiveReplaySegment.observe, ActiveReplaySegment.context]
    split <;> exact counts
  | event message => cases message <;> simp [ActiveReplaySegment.observe, counts]
  | _ => simp [ActiveReplaySegment.observe, ActiveReplaySegment.compact, counts]

theorem HasBoundary.cons {items : List (RolloutItem State)} {ends : RolloutItem State → Bool}
    (stays : ends item = false)
    (found : HasBoundary ops ((item :: items).takeWhile fun item => !ends item)) :
    (∃ response, item = .responseItem response ∧ isUserTurnBoundary ops response.item = true) ∨
      HasBoundary ops (items.takeWhile fun item => !ends item) := by
  obtain ⟨response, member, boundary⟩ := found
  rw [takeWhile_cons, stays] at member
  cases mem_cons.mp member with
  | inl equal => exact .inl ⟨response, equal.symm, boundary⟩
  | inr later => exact .inr ⟨response, later, boundary⟩

theorem opensTurn_stays (stays : StaysInSegment item) : opensTurn item = false := by
  unfold opensTurn
  split
  · exact stays.elim
  · rfl

theorem startsTurn_stays (stays : StaysInSegment item) (turnId : TurnId) :
    startsTurn turnId item = false := by
  unfold startsTurn
  split
  · exact stays.elim
  · rfl

variable {active : ActiveReplaySegment State}

section Agreement

variable {ops} {older newer : List (RolloutItem State)}
  {segment}

section

variable (agree : SegmentsAgree ops (item :: older) newer segment active)
include agree

section

variable (stays : StaysInSegment item)
include stays

theorem SegmentsAgree.observe_named (own : Owned older segment item) :
    (active.observe ops item suffix).turnId = (segment.observe ops item).turnId ∨
      (active.observe ops item suffix).turnId = none ∧
        ∃ turnId, (segment.observe ops item).turnId = some turnId ∧
          ∀ name, older.findSome? turnNamed = some name → name = turnId := by
  rw [turnId_observe ops active item suffix stays, scan_turnId_observe ops segment stays]
  rcases agree.named with equal | ⟨unnamed, turnId, held, next⟩
  · rw [equal]
    cases named : segment.turnId with
    | some turnId => exact .inl rfl
    | none =>
      cases item with
      | event message =>
        cases message with
        | itemCompleted turnId isUserMessage =>
          exact .inr ⟨rfl, turnId, rfl, own turnId rfl named⟩
        | _ => exact .inl rfl
      | _ => exact .inl rfl
  · rw [unnamed, held, some_or]
    cases named : turnNamed item with
    | some name =>
      rw [findSome?_cons_of_isSome (by rw [named]; rfl), named] at next
      exact .inl (congrArg some (next name rfl))
    | none =>
      rw [findSome?_cons_of_isNone (by rw [named]; rfl)] at next
      exact .inr ⟨rfl, turnId, rfl, next⟩

theorem SegmentsAgree.observe_user (accompanied : Accompanied ops older newer item)
    (user : (segment.observe ops item).hasUserTurn = true) :
    Promised ops older (segment.observe ops item) (active.observe ops item suffix) := by
  have earlier (held : segment.hasUserTurn = true) :
      Promised ops older (segment.observe ops item) (active.observe ops item suffix) := by
    rcases agree.user held with counts | ⟨turnId, named, promised⟩
    · exact .inl (counts_observe ops item suffix counts)
    · rw [Promised, scan_turnId_observe ops segment stays, named]
      by_cases started : older.any (startsTurn turnId) = true
      · have found := promised (by rw [any_cons, started, Bool.or_true])
        rcases HasBoundary.cons ops (startsTurn_stays stays turnId) found with
          ⟨response, rfl, boundary⟩ | later
        · simp [ActiveReplaySegment.observe, boundary]
        · exact .inr ⟨turnId, rfl, fun _ => later⟩
      · exact .inr ⟨turnId, rfl, fun other => absurd other started⟩
  cases item with
  | responseItem response =>
    simp only [ActiveTurnSegment.observe, Bool.or_eq_true] at user
    cases user with
    | inl held => exact earlier held
    | inr counts =>
      left
      simp only [ActiveReplaySegment.observe, Bool.or_eq_true]
      exact .inr (boundary_of_counts ops counts)
  | interAgentCommunication author recipient content turnId => exact .inl rfl
  | turnContext context =>
    apply earlier
    simp only [ActiveTurnSegment.observe] at user
    split at user <;> exact user
  | event message =>
    cases message with
    | userMessage event => exact .inl rfl
    | itemCompleted turnId isUserMessage =>
      have named := scan_turnId_observe ops segment stays
      simp only [ActiveTurnSegment.observe] at user
      split at user
      · rename_i compatible
        rw [Bool.or_eq_true] at user
        cases user with
        | inl held => exact earlier held
        | inr isUser =>
          subst isUser
          have owner : segment.turnId.or (some turnId) = some turnId := or_of_compatible compatible
          rw [itemNamed, some_or, owner] at named
          by_cases started : older.any (startsTurn turnId) = true
          · cases accompanied turnId rfl started with
            | inl found => exact .inr ⟨turnId, named, fun _ => found⟩
            | inr read => exact .inl (agree.boundary read)
          · exact .inr ⟨turnId, named, fun other => absurd other started⟩
      · exact earlier user
    | _ => exact earlier user
  | _ => exact earlier user

theorem SegmentsAgree.observe_boundary
    (found : HasBoundary ops ((item :: newer).takeWhile fun item => !opensTurn item)) :
    (active.observe ops item suffix).countsAsUserTurn = true := by
  rcases HasBoundary.cons ops (opensTurn_stays stays) found with ⟨response, rfl, boundary⟩ | later
  · simp [ActiveReplaySegment.observe, boundary]
  · exact counts_observe ops item suffix (agree.boundary later)

end

theorem SegmentsAgree.observe_context (context : (segment.observe ops item).hasTurnContext = true) :
    (active.observe ops item suffix).previousTurnSettings.isSome = true ∧
      (active.observe ops item suffix).referenceContextItem ≠ .neverSet := by
  have reset (found : TurnReferenceContextItem) (set : found ≠ .neverSet) :
      (if active.referenceContextItem = .neverSet then found
        else active.referenceContextItem) ≠ .neverSet := by
    split
    · exact set
    · assumption
  have cleared : TurnReferenceContextItem.cleared ≠ .neverSet := TurnReferenceContextItem.noConfusion
  cases item with
  | turnContext turnContext =>
    have latest : TurnReferenceContextItem.latest turnContext ≠ .neverSet :=
      TurnReferenceContextItem.noConfusion
    simp only [ActiveTurnSegment.observe, ActiveReplaySegment.observe,
      ActiveReplaySegment.context] at context ⊢
    split at context
    · rename_i compatible
      -- the pass names the same turn as the scan, or none yet
      have alike : turnIdsAreCompatible (active.turnId.or turnContext.turnId)
          turnContext.turnId = true := by
        rcases agree.named with equal | ⟨unnamed, _⟩
        · rw [equal]
          exact compatible
        · rw [unnamed]
          exact compatible_self _
      rw [if_pos alike]
      exact ⟨rfl, reset _ latest⟩
    · split
      · exact ⟨rfl, reset _ latest⟩
      · exact agree.context context
  | compacted compacted => exact ⟨(agree.context context).1, reset _ cleared⟩
  | event message =>
    cases message with
    | itemCompleted turnId isUserMessage =>
      simp only [ActiveTurnSegment.observe] at context
      split at context <;> exact agree.context context
    | _ => exact agree.context context
  | _ => exact agree.context context

omit agree in
theorem any_takeWhile_append {α : Type} {items more : List α} {holds found : α → Bool}
    (any : (items.takeWhile holds).any found = true) :
    ((items ++ more).takeWhile holds).any found = true := by
  rw [takeWhile_append]
  split
  · rename_i whole
    rw [any_append]
    rw [(List.takeWhile_prefix holds).eq_of_length whole] at any
    rw [any, Bool.true_or]
  · exact any

theorem SegmentsAgree.observe_world (world : (segment.observe ops item).hasFullWorldState = true) :
    ((active.observe ops item suffix).worldStateReplay.takeWhile fun item =>
      !isCompacted item).any isFullWorldState = true := by
  obtain ⟨read, grown, compacted, full⟩ := worldStateReplay_observe ops active item suffix
  rw [(scan_observe_seen ops segment item).2, Bool.or_eq_true, Bool.and_eq_true] at world
  rw [grown]
  rcases world with held | ⟨isFull, uncompacted⟩
  · exact any_takeWhile_append (agree.world held)
  · have here : isCompacted item = false := by
      cases item with
      | worldState full state => rfl
      | _ => cases isFull
    have whole : (active.worldStateReplay ++ read).any isCompacted = false := by
      rw [any_append, compacted, here, ← agree.compaction]
      simpa using uncompacted
    have passed : ∀ item ∈ active.worldStateReplay ++ read, (!isCompacted item) = true :=
      fun item member => by simpa using any_eq_false.mp whole item member
    rw [takeWhile_eq_self_iff.mpr passed, any_append, full, isFull, Bool.or_true]

theorem SegmentsAgree.observe_compaction :
    (segment.observe ops item).sawCompaction =
      (active.observe ops item suffix).worldStateReplay.any isCompacted := by
  obtain ⟨read, grown, compacted, _⟩ := worldStateReplay_observe ops active item suffix
  rw [(scan_observe_seen ops segment item).1, grown, any_append, compacted, agree.compaction,
    Bool.or_comm]

theorem SegmentsAgree.observe (stays : StaysInSegment item) (own : Owned older segment item)
    (accompanied : Accompanied ops older newer item) :
    SegmentsAgree ops older (item :: newer) (segment.observe ops item)
      (active.observe ops item suffix) where
  named := agree.observe_named stays own
  user := agree.observe_user stays accompanied
  boundary := agree.observe_boundary stays
  context := agree.observe_context
  world := agree.observe_world
  compaction := agree.observe_compaction

end

end Agreement

structure Agrees (older newer : List (RolloutItem State)) (scan : ModelContextScan State)
    (replay : ReverseReplay State) : Prop where
  pending : replay.pendingRollbackTurns = 0
  segments : SegmentsAgree ops older newer scan.activeSegment replay.segment
  compaction : scan.sawCompaction = true →
    replay.baseCompaction.isSome = true ∨ scan.activeSegment.sawCompaction = true
  completed : scan.sawCompletedTurnContext = true →
    replay.previousTurnSettings.isSome = true ∧ replay.referenceContextItem ≠ .neverSet

section Steps

variable {ops} {older newer : List (RolloutItem State)} {scan : ModelContextScan State}

theorem scan_observe
    (bounded : (scan.observe ops item).mustScanToStart = false) : scan.mustScanToStart = false := by
  cases must : scan.mustScanToStart with
  | false => rfl
  | true =>
    unfold ModelContextScan.observe at bounded
    rw [if_pos must, must] at bounded
    exact bounded

theorem scan_observe_stays (stays : StaysInSegment item)
    (bounded : (scan.observe ops item).mustScanToStart = false) :
    CompleteCheckpoint item ∧
      (scan.observe ops item).activeSegment = scan.activeSegment.observe ops item ∧
      (scan.observe ops item).sawCompletedTurnContext = scan.sawCompletedTurnContext ∧
      ((scan.observe ops item).sawCompaction = true → scan.sawCompaction = true ∨
          (scan.activeSegment.observe ops item).sawCompaction = true) := by
  have must := scan_observe bounded
  simp only [ModelContextScan.observe, must, Bool.false_eq_true, if_false] at bounded ⊢
  cases item with
  | compacted compacted =>
    dsimp only at bounded ⊢
    split at bounded
    · cases bounded
    · rename_i complete
      rw [if_neg complete]
      simp only [not_or, isNone_iff_eq_none, ← isSome_iff_ne_none] at complete
      exact ⟨complete, rfl, rfl, fun _ => .inr rfl⟩
  | event message =>
    cases message with
    | threadRolledBack | turnStarted => exact stays.elim
    | _ => exact ⟨trivial, rfl, rfl, .inl⟩
  | _ => exact ⟨trivial, rfl, rfl, .inl⟩

variable {segment} {turnId : TurnId}

theorem Agrees.observe_stays (agrees : Agrees ops (item :: older) newer scan replay)
    (stays : StaysInSegment item) (bounded : (scan.observe ops item).mustScanToStart = false)
    (own : Owned older scan.activeSegment item) (accompanied : Accompanied ops older newer item) :
    Agrees ops older (item :: newer) (scan.observe ops item) (replay.observe ops item newer) := by
  obtain ⟨_, scanned, completed, compaction⟩ := scan_observe_stays stays bounded
  obtain ⟨active, observed, segmentEq, _⟩ := observe_staysInSegment ops replay newer stays
  rw [observed]
  constructor
  · exact agrees.pending
  · rw [scanned]
    have current : ({ replay with activeSegment := active } : ReverseReplay State).segment =
        replay.segment.observe ops item newer := segmentEq
    rw [current]
    exact agrees.segments.observe stays own accompanied
  · intro saw
    rw [scanned]
    cases compaction saw with
    | inr now => exact .inr now
    | inl earlier =>
      refine (agrees.compaction earlier).imp_right fun saw => ?_
      rw [(scan_observe_seen ops _ item).1, saw, Bool.or_true]
  · rw [completed]
    exact agrees.completed

section

variable (agree : SegmentsAgree ops (.event (.turnStarted turnId) :: older) newer segment active)
include agree

theorem SegmentsAgree.compatible_iff :
    turnIdsAreCompatible active.turnId (some turnId) =
      turnIdsAreCompatible segment.turnId (some turnId) := by
  rcases agree.named with equal | ⟨unnamed, name, named, next⟩
  · rw [equal]
  · rw [unnamed, named, next turnId rfl]
    simp

theorem SegmentsAgree.hasContextBaseline
    (compatible : turnIdsAreCompatible segment.turnId (some turnId) = true)
    (found : segment.hasUserTurn = true ∨ segment.hasFullWorldState = true) :
    active.hasContextBaseline = true := by
  rw [ActiveReplaySegment.hasContextBaseline, Bool.or_eq_true]
  cases found with
  | inr full => exact .inr (agree.world full)
  | inl user =>
    rcases agree.user user with counts | ⟨name, named, promised⟩
    · exact .inl counts
    · -- the record that would keep the promise lies behind the start of the turn
      rw [named] at compatible
      have same : turnId = name := of_decide_eq_true compatible
      subst same
      have starts : startsTurn turnId (.event (.turnStarted turnId) : RolloutItem State) = true :=
        decide_eq_true rfl
      obtain ⟨response, member, _⟩ := promised (by rw [any_cons, starts, Bool.true_or])
      rw [takeWhile_cons, starts] at member
      cases member

omit agree in
theorem SegmentsAgree.fresh (turnId : TurnId) :
    SegmentsAgree ops older (.event (.turnStarted turnId) :: newer) {} {} where
  named := .inl rfl
  user := nofun
  boundary := by
    rintro ⟨response, member, _⟩
    cases member
  context := nofun
  world := nofun
  compaction := rfl

theorem SegmentsAgree.passes
    (incompatible : turnIdsAreCompatible segment.turnId (some turnId) = false) :
    SegmentsAgree ops older (.event (.turnStarted turnId) :: newer) segment active where
  named := by
    rcases agree.named with equal | ⟨unnamed, name, named, next⟩
    · exact .inl equal
    · rw [named, next turnId rfl] at incompatible
      simp at incompatible
  user := by
    intro user
    rcases agree.user user with counts | ⟨name, named, promised⟩
    · exact .inl counts
    · right
      refine ⟨name, named, fun started => ?_⟩
      have other : startsTurn name (.event (.turnStarted turnId) : RolloutItem State) = false := by
        rw [named] at incompatible
        exact incompatible
      rcases HasBoundary.cons ops other (promised (by rw [any_cons, started, Bool.or_true])) with
        ⟨response, impossible, _⟩ | later
      · cases impossible
      · exact later
  boundary := by
    rintro ⟨response, member, _⟩
    cases member
  context := agree.context
  world := agree.world
  compaction := agree.compaction

end

variable {segment : ActiveReplaySegment State}

theorem keep_metadata (baseline : segment.hasContextBaseline = true)
    (settings : segment.previousTurnSettings.isSome = true)
    (reference : segment.referenceContextItem ≠ .neverSet) :
    (replay.keep segment).previousTurnSettings.isSome = true ∧
      (replay.keep segment).referenceContextItem ≠ .neverSet := by
  simp only [keep, baseline, and_true, true_or]
  constructor
  · split
    · exact settings
    · rename_i held
      exact isSome_iff_ne_none.mpr (mt isNone_iff_eq_none.mpr held)
  · split
    · exact reference
    · assumption

section

variable (agrees : Agrees ops (.event (.turnStarted turnId) :: older) newer scan replay)
include agrees

theorem Agrees.finalize (kept : CheckpointsKept replay) (current : replay.segment = segment)
    (compatible : turnIdsAreCompatible scan.activeSegment.turnId (some turnId) = true) :
    Agrees ops older (.event (.turnStarted turnId) :: newer) scan.finalizeActiveSegment
      (replay.keep segment) := by
  have segments := agrees.segments
  rw [current] at segments
  constructor
  · exact agrees.pending
  · exact .fresh turnId
  · intro saw
    left
    simp only [keep, isSome_or, Bool.or_eq_true]
    apply (agrees.compaction saw).imp_right
    intro sawHere
    rw [← current, ← kept.segment, current, ← segments.compaction]
    exact sawHere
  · intro completed
    simp only [ModelContextScan.finalizeActiveSegment, Bool.or_eq_true, Bool.and_eq_true]
      at completed
    rcases completed with earlier | ⟨context, found⟩
    · obtain ⟨settings, reference⟩ := agrees.completed earlier
      rw [keep_settings _ _ settings, keep_reference _ _ reference]
      exact ⟨settings, reference⟩
    · obtain ⟨settings, reference⟩ := segments.context context
      exact keep_metadata (segments.hasContextBaseline compatible found) settings reference

theorem Agrees.observe_start
    (kept : CheckpointsKept replay) (bounded : scan.mustScanToStart = false) :
    Agrees ops older (.event (.turnStarted turnId) :: newer)
      (scan.observe ops (.event (.turnStarted turnId)))
      (replay.observe ops (.event (.turnStarted turnId)) newer) := by
  have together := agrees.segments.compatible_iff
  simp only [ModelContextScan.observe, bounded, observe]
  cases compatible : turnIdsAreCompatible scan.activeSegment.turnId (some turnId) with
  | false =>
    have unchanged : Agrees ops older (.event (.turnStarted turnId) :: newer) scan replay :=
      ⟨agrees.pending, agrees.segments.passes compatible, agrees.compaction, agrees.completed⟩
    cases active : replay.activeSegment with
    | none => exact unchanged
    | some segment =>
      rw [ReverseReplay.segment, active, getD_some, compatible] at together
      simp only [together]
      exact unchanged
  | true =>
    cases active : replay.activeSegment with
    | none =>
      -- nothing was read since the last turn but records that the pass ignores
      have empty : replay.segment = {} := by
        simp [ReverseReplay.segment, active]
      have closed := agrees.finalize kept empty compatible
      rw [keep_empty replay active] at closed
      exact closed
    | some segment =>
      rw [ReverseReplay.segment, active, getD_some, compatible] at together
      simp only [together, finalize_keep _ _ agrees.pending]
      exact agrees.finalize kept (by simp [ReverseReplay.segment, active])
        compatible

end

theorem Agrees.anchored (agrees : Agrees ops older newer scan replay)
    (kept : CheckpointsKept replay) (cutoff : scan.hasBoundedCutoff = true)
    (unsettled : replay.settled = false) : Anchored replay replay.segment := by
  simp only [ModelContextScan.hasBoundedCutoff, Bool.and_eq_true] at cutoff
  obtain ⟨⟨_, saw⟩, completed⟩ := cutoff
  obtain ⟨settings, reference⟩ := agrees.completed completed
  have unbased : replay.baseCompaction = none := by
    simpa [settled, settings, reference] using unsettled
  have compaction : replay.segment.worldStateReplay.any isCompacted = true := by
    rw [← agrees.segments.compaction]
    apply (agrees.compaction saw).resolve_left
    rw [unbased]
    nofun
  have base : replay.segment.baseCompaction.isSome = true := by
    rw [← kept.segment]
    exact compaction
  have active : replay.activeSegment = some replay.segment := by
    cases held : replay.activeSegment with
    | none =>
      rw [ReverseReplay.segment, held] at base
      cases base
    | some segment => simp [ReverseReplay.segment, held]
  exact ⟨active, agrees.pending, unbased, settings, reference, base, kept.window base, compaction⟩

end Steps

/-! ### Reading until the cutoff -/

variable (scan : ModelContextScan State)

theorem readOlder_cons (item : RolloutItem State) (older : List (RolloutItem State)) :
    readOlder ops scan (item :: older) =
      if (scan.push ops item).1.hasBoundedCutoff = true then (scan.push ops item).1
      else readOlder ops (scan.push ops item).1 older := by
  by_cases cutoff : (scan.observe ops item).hasBoundedCutoff = true
  · have complete : (scan.push ops item).1.hasBoundedCutoff = true := cutoff
    rw [if_pos complete]
    simp [readOlder, ModelContextScan.push, cutoff]
  · have incomplete : ¬ (scan.push ops item).1.hasBoundedCutoff = true := cutoff
    rw [if_neg incomplete]
    simp [readOlder, ModelContextScan.push, cutoff]

theorem readOlder_going {scan : ModelContextScan State} {older : List (RolloutItem State)}
    (unfinished : (readOlder ops scan (item :: older)).hasBoundedCutoff = false) :
    ¬ (scan.push ops item).1.hasBoundedCutoff = true ∧
      readOlder ops scan (item :: older) = readOlder ops (scan.push ops item).1 older := by
  rw [readOlder_cons] at unfinished ⊢
  split at unfinished
  · simp_all
  · rename_i incomplete
    exact ⟨incomplete, if_neg incomplete⟩

theorem readOlder_append (more : List (RolloutItem State)) (scan : ModelContextScan State)
    (unfinished : (readOlder ops scan items).hasBoundedCutoff = false) :
    readOlder ops scan (items ++ more) = readOlder ops (readOlder ops scan items) more := by
  induction items generalizing scan with
  | nil => rfl
  | cons item items ih =>
    obtain ⟨incomplete, going⟩ := readOlder_going ops unfinished
    rw [going] at unfinished ⊢
    rw [cons_append, readOlder_cons, if_neg incomplete]
    exact ih _ unfinished

/-- Every completed user message has a response item that opens a user turn, recorded since its
turn started and before the next turn starts. -/
def UserMessagesAccompanied : Prop :=
  ∀ before turnId after, rollout = before ++ .event (.itemCompleted turnId true) :: after →
    before.any (startsTurn turnId) = true →
    HasBoundary ops (before.reverse.takeWhile fun item => !startsTurn turnId item) ∨
      HasBoundary ops (after.takeWhile fun item => !opensTurn item)

/-- A completed item that the scan reads before any other record has named its segment's turn
belongs to the turn that the next older record names. -/
def ItemsNameTheirTurn : Prop :=
  ∀ before turnId isUserMessage after,
    rollout = before ++ .event (.itemCompleted turnId isUserMessage) :: after →
    (readOlder ops {} after.reverse).hasBoundedCutoff = false →
    (readOlder ops {} after.reverse).mustScanToStart = false →
    (readOlder ops {} after.reverse).activeSegment.turnId = none →
    ∀ name, before.reverse.findSome? turnNamed = some name → name = turnId

structure Reading (older newer : List (RolloutItem State)) (scan : ModelContextScan State) :
    Prop where
  reached : readOlder ops {} newer.reverse = scan
  unfinished : scan.hasBoundedCutoff = false
  items : scan.itemsNewestFirst = newer.reverse
  complete : scan.mustScanToStart = false → ∀ item ∈ newer, CompleteCheckpoint item
  agrees : scan.mustScanToStart = false → (reverseReplay ops newer).settled = true ∨
    Agrees ops older newer scan (reverseReplay ops newer)

theorem Reading.start : Reading ops rollout.reverse [] ({} : ModelContextScan State) where
  reached := rfl
  unfinished := rfl
  items := rfl
  complete := fun _ => nofun
  agrees := fun _ => .inr
    { pending := rfl
      segments := ⟨.inl rfl, nofun, nofun, nofun, nofun, rfl⟩
      compaction := nofun
      completed := nofun }

theorem items_observe (item : RolloutItem State) :
    (scan.observe ops item).itemsNewestFirst = scan.itemsNewestFirst := by
  unfold ModelContextScan.observe
  split
  · rfl
  · split
    · split <;> rfl
    · rfl
    · split <;> rfl
    · rfl

section Reader

variable {ops} {older newer : List (RolloutItem State)}
  {scan}

theorem Reading.pushed (reading : Reading ops (item :: older) newer scan)
    (accompanied : UserMessagesAccompanied ops (older.reverse ++ item :: newer))
    (own : ItemsNameTheirTurn ops (older.reverse ++ item :: newer))
    (bounded : (scan.observe ops item).mustScanToStart = false) :
    (∀ record ∈ item :: newer, CompleteCheckpoint record) ∧
      ((reverseReplay ops (item :: newer)).settled = true ∨
        Agrees ops older (item :: newer) (scan.observe ops item)
          (reverseReplay ops (item :: newer))) := by
  have must := scan_observe bounded
  have complete := reading.complete must
  have kept := checkpointsKept_reverseReplay ops complete
  have head : CompleteCheckpoint item := by
    rcases staysInSegment_or item with stays | ⟨turnId, rfl⟩ | ⟨numTurns, rfl⟩
    · exact (scan_observe_stays stays bounded).1
    · trivial
    · trivial
  refine ⟨forall_mem_cons.mpr ⟨head, complete⟩, ?_⟩
  cases settled : (reverseReplay ops newer).settled with
  | true =>
    left
    rw [show reverseReplay ops (item :: newer) = reverseReplay ops newer from
      reverseReplay_settled ops [item] newer settled, settled]
  | false =>
    right
    have agrees := (reading.agrees must).resolve_left (by rw [settled]; nofun)
    rw [reverseReplay_cons ops item settled]
    rcases staysInSegment_or item with stays | ⟨turnId, rfl⟩ | ⟨numTurns, rfl⟩
    · apply agrees.observe_stays stays bounded
      · intro turnId named unnamed
        obtain ⟨isUserMessage, rfl⟩ := itemNamed_eq_some named
        have next := own older.reverse turnId isUserMessage newer rfl
        rw [reading.reached, reverse_reverse] at next
        exact next reading.unfinished must unnamed
      · rintro turnId rfl started
        have found := accompanied older.reverse turnId newer rfl
        rw [any_reverse, reverse_reverse] at found
        exact found started
    · exact agrees.observe_start kept must
    · simp only [ModelContextScan.observe, must] at bounded
      cases bounded

end Reader

theorem reconstruct_settled (suffix older : List (RolloutItem State))
    (complete : ∀ item ∈ suffix, CompleteCheckpoint item)
    (settled : (reverseReplay ops suffix).settled = true) :
    reconstructHistoryFromRollout ops (older ++ suffix) =
      reconstructHistoryFromRollout ops suffix := by
  have kept := (checkpointsKept_reverseReplay ops complete).closed
  have based : (reverseReplay ops suffix).closed.baseCompaction.isSome = true := by
    simp only [ReverseReplay.settled, Bool.and_eq_true] at settled
    exact closed_base settled.1.1
  have same := reverseReplay_settled ops older suffix settled
  exact reconstruct_congr ops (congrArg _ same) rfl rfl based rfl (kept.base based) rfl rfl rfl

theorem reconstruct_cutoff {newer older : List (RolloutItem State)} {scan : ModelContextScan State}
    (complete : ∀ item ∈ newer, CompleteCheckpoint item)
    (agrees : (reverseReplay ops newer).settled = true ∨
      Agrees ops older newer scan (reverseReplay ops newer))
    (cutoff : scan.hasBoundedCutoff = true) (left : List (RolloutItem State))
    (unrolled : ∀ numTurns, .event (.threadRolledBack numTurns) ∉ left) :
    reconstructHistoryFromRollout ops (left ++ newer) =
      reconstructHistoryFromRollout ops newer := by
  cases settled : (reverseReplay ops newer).settled with
  | true => exact reconstruct_settled ops newer left complete settled
  | false =>
    have agrees := agrees.resolve_left (by rw [settled]; nofun)
    have kept := checkpointsKept_reverseReplay ops complete
    exact (agrees.anchored kept cutoff settled).reconstruct_older ops left unrolled

theorem Reading.resumes (sessionMeta : Option (List Char)) (older : List (RolloutItem State))
    (newer : List (RolloutItem State)) (scan : ModelContextScan State)
    (reading : Reading ops older newer scan)
    (unrolled : ∀ numTurns, .event (.threadRolledBack numTurns) ∉ older)
    (accompanied : UserMessagesAccompanied ops (older.reverse ++ newer))
    (own : ItemsNameTheirTurn ops (older.reverse ++ newer)) :
    reconstructHistoryFromRollout ops
        ((readOlder ops scan older).finish (.sessionMeta sessionMeta)) =
      reconstructHistoryFromRollout ops (older.reverse ++ newer) := by
  induction older generalizing newer scan with
  | nil =>
    rw [readOlder, ModelContextScan.finish, reading.unfinished, reading.items, reverse_reverse]
    rfl
  | cons item older ih =>
    rw [reverse_cons, append_assoc, singleton_append] at accompanied own ⊢
    simp only [mem_cons, not_or] at unrolled
    have items : (scan.push ops item).1.itemsNewestFirst = (item :: newer).reverse := by
      rw [reverse_cons, ← reading.items, ← items_observe ops scan item]
      rfl
    rw [readOlder_cons]
    split
    · rename_i cutoff
      have bounded : (scan.observe ops item).mustScanToStart = false := by
        have held : (scan.observe ops item).hasBoundedCutoff = true := cutoff
        simp only [ModelContextScan.hasBoundedCutoff, Bool.and_eq_true] at held
        simpa using held.1.1
      obtain ⟨complete, agrees⟩ := reading.pushed accompanied own bounded
      have leavesOut := reconstruct_cutoff ops complete agrees cutoff
      calc
        _ = reconstructHistoryFromRollout ops ([.sessionMeta sessionMeta] ++ (item :: newer)) := by
            rw [ModelContextScan.finish, if_pos cutoff, items, reverse_reverse]
            rfl
        _ = reconstructHistoryFromRollout ops (item :: newer) :=
            leavesOut _ fun numTurns member => nomatch mem_singleton.mp member
        _ = _ := by
            rw [leavesOut older.reverse]
            intro numTurns member
            exact (unrolled numTurns).2 (mem_reverse.mp member)
    · rename_i incomplete
      refine ih (item :: newer) _ ?_ (fun numTurns => (unrolled numTurns).2) accompanied own
      constructor
      · rw [reverse_cons, readOlder_append, reading.reached, readOlder_cons, if_neg incomplete]
        · rfl
        · rw [reading.reached]
          exact reading.unfinished
      · exact Bool.not_eq_true _ ▸ incomplete
      · exact items
      · exact fun bounded => (reading.pushed accompanied own bounded).1
      · exact fun bounded => (reading.pushed accompanied own bounded).2.imp_right
          fun agrees => ⟨agrees.pending, agrees.segments, agrees.compaction, agrees.completed⟩

theorem readOlder_items (unfinished : (readOlder ops scan items).hasBoundedCutoff = false) :
    (readOlder ops scan items).itemsNewestFirst = scan.itemsNewestFirst ++ items := by
  induction items generalizing scan with
  | nil => exact (append_nil _).symm
  | cons item items ih =>
    have going := (readOlder_going ops unfinished).2
    have pushed : (scan.push ops item).1.itemsNewestFirst = scan.itemsNewestFirst ++ [item] := by
      rw [← items_observe ops scan item]
      rfl
    rw [going] at unfinished ⊢
    rw [ih _ unfinished, pushed, append_assoc, singleton_append]

/-- A bounded resume gives what a full resume gives, as long as no segment of a scan that stops
early takes its turn from an item of another turn. -/
theorem bounded_resume_eq_full_resume (contextWindowId : Option (List Char))
    (records : List (RolloutItem State))
    (unrolled : ∀ numTurns, .event (.threadRolledBack numTurns) ∉ records)
    (accompanied : UserMessagesAccompanied ops (.sessionMeta contextWindowId :: records))
    (own : (readOlder ops {} (.sessionMeta contextWindowId :: records).reverse).hasBoundedCutoff =
        true →
      ItemsNameTheirTurn ops (.sessionMeta contextWindowId :: records)) :
    reconstructHistoryFromRollout ops
        (boundedItems ops (.sessionMeta contextWindowId :: records)
          (.sessionMeta contextWindowId)) =
      reconstructHistoryFromRollout ops (.sessionMeta contextWindowId :: records) := by
  cases cutoff : (readOlder ops {}
      (.sessionMeta contextWindowId :: records).reverse).hasBoundedCutoff with
  | false =>
    have items := readOlder_items ops _ _ cutoff
    rw [boundedItems, ModelContextScan.finish, cutoff, items]
    simp
  | true =>
    have resumes := Reading.resumes ops contextWindowId _ [] {}
      (.start ops (.sessionMeta contextWindowId :: records))
    rw [reverse_reverse, append_nil] at resumes
    refine resumes ?_ accompanied (own cutoff)
    intro numTurns member
    cases mem_cons.mp (mem_reverse.mp member) with
    | inl equal => cases equal
    | inr later => exact unrolled numTurns later

def emptyCheckpoint : RolloutItem Unit := .compacted ⟨[], some [], some 1, none, none, none⟩

def runningTurn : List (RolloutItem Unit) :=
  [.event (.turnStarted ['a']), contextOf ['a'] ['m'], userText ['h'], .event (.turnComplete ['a']),
    .event (.turnStarted ['b']), contextOf ['b'] ['n'], userText ['i'],
    .event (.itemCompleted ['b'] true), emptyCheckpoint]

theorem running_turn_resumes :
    boundedItems plainOps (.sessionMeta none :: runningTurn) (.sessionMeta none) =
        .sessionMeta none :: runningTurn.drop 4 ∧
      reconstructHistoryFromRollout plainOps
          (boundedItems plainOps (.sessionMeta none :: runningTurn) (.sessionMeta none)) =
        reconstructHistoryFromRollout plainOps (.sessionMeta none :: runningTurn) := by
  refine ⟨by decide +kernel, bounded_resume_eq_full_resume plainOps none runningTurn ?_ ?_ ?_⟩
  · intro numTurns member
    simp [runningTurn, contextOf, userText, emptyCheckpoint] at member
  · intro before turnId after split started
    simp [runningTurn, contextOf, userText, emptyCheckpoint, cons_eq_append_iff] at split
    obtain ⟨rfl, rfl, rfl⟩ := split
    exact .inl ⟨_, .head _, rfl⟩
  · intro _ before turnId isUserMessage after split _ _ _ name named
    simp [runningTurn, contextOf, userText, emptyCheckpoint, cons_eq_append_iff] at split
    obtain ⟨rfl, ⟨rfl, rfl⟩, rfl⟩ := split
    cases named
    rfl

/-- A finished turn that had no input, and a running one in whose records a late item of the
finished turn is the newest. -/
def lateItem : List (RolloutItem Unit) :=
  [.event (.turnStarted ['a']), contextOf ['a'] ['m'], userText ['h'], .event (.turnComplete ['a']),
    .event (.turnStarted ['b']), contextOf ['b'] ['n'], .event (.turnComplete ['b']),
    .event (.turnStarted ['c']), .interAgentCommunication ['p'] ['q'] ['r'] none,
    emptyCheckpoint, .event (.itemCompleted ['b'] false)]

theorem late_item_resumes_apart :
    (∀ numTurns, .event (.threadRolledBack numTurns) ∉ lateItem) ∧
      UserMessagesAccompanied plainOps (.sessionMeta none :: lateItem) ∧
      reconstructHistoryFromRollout plainOps
          (boundedItems plainOps (.sessionMeta none :: lateItem) (.sessionMeta none)) ≠
        reconstructHistoryFromRollout plainOps (.sessionMeta none :: lateItem) := by
  refine ⟨?_, ?_, by decide +kernel⟩
  · intro numTurns member
    simp [lateItem, contextOf, userText, emptyCheckpoint] at member
  · intro before turnId after split
    simp [lateItem, contextOf, userText, emptyCheckpoint, cons_eq_append_iff] at split

end OpenInterpreter.BoundedResume
