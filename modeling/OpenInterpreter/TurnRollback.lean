import Mathlib.Data.List.TakeWhile
import OpenInterpreter.RolloutReplay

/-! Rollouts made of whole turns and rollback markers: the metadata is read backward by turns,
the history is replayed forward by user messages, and a rollback that cuts whole turns keeps the
two in step. -/

namespace OpenInterpreter.TurnRollback

open Rollout ContextHistory RolloutReplay List Bool ActiveReplaySegment

structure Turn (State : Type) where
  turnId : TurnId
  records : List (RolloutItem State)
  stays : ∀ record ∈ records, StaysInSegment record
  checkpoints : ∀ compacted, .compacted compacted ∈ records →
    compacted.replacementHistory.isSome = true

inductive Block (State : Type) where
  | wholeTurn (turn : Turn State)
  | rolledBack (numTurns : Nat)

variable {State Snapshot : Type}

def Turn.items (turn : Turn State) : List (RolloutItem State) :=
  .event (.turnStarted turn.turnId) :: (turn.records ++ [.event (.turnComplete turn.turnId)])

def Block.items : Block State → List (RolloutItem State)
  | .wholeTurn turn => turn.items
  | .rolledBack numTurns => [.event (.threadRolledBack numTurns)]

def itemsOf (blocks : List (Block State)) : List (RolloutItem State) :=
  blocks.flatMap Block.items

variable (ops : ReplayOps State Snapshot)

def countsAsUserTurn : RolloutItem State → Bool
  | .event (.userMessage _) => true
  | .interAgentCommunication .. => true
  | .responseItem response => isUserTurnBoundary ops response.item
  | _ => false

def Turn.isUserTurn (turn : Turn State) : Bool := turn.records.any (countsAsUserTurn ops)

def recordedEntry : RolloutItem State → Option ResponseItemEnvelope
  | .responseItem response =>
    if isApiMessage response then some (processed ops response) else none
  | .interAgentCommunication author recipient content turnId =>
    some (toModelInputItem author recipient content turnId)
  | _ => none

def Turn.recorded (turn : Turn State) : List ResponseItemEnvelope :=
  turn.records.filterMap (recordedEntry ops)

/-! ### The surviving turns -/

/-- Rolling back drops the newest turns up to the `n`-th newest user turn. Turns are newest
first. -/
def dropNewest : Nat → List (Turn State) → List (Turn State)
  | 0, turns => turns
  | _ + 1, [] => []
  | count + 1, turn :: turns =>
    if turn.isUserTurn ops then dropNewest count turns else dropNewest (count + 1) turns

def removedBy : Nat → List (Turn State) → List (Turn State)
  | 0, _ => []
  | _ + 1, [] => []
  | count + 1, turn :: turns =>
    turn :: if turn.isUserTurn ops then removedBy count turns else removedBy (count + 1) turns

def userTurns (turns : List (Turn State)) : Nat := turns.countP (Turn.isUserTurn ops)

def aliveAfter : List (Turn State) → List (Block State) → List (Turn State)
  | alive, [] => alive
  | alive, .wholeTurn turn :: blocks => aliveAfter (turn :: alive) blocks
  | alive, .rolledBack numTurns :: blocks => aliveAfter (dropNewest ops numTurns alive) blocks

def survivors (blocks : List (Block State)) : List (Turn State) :=
  (aliveAfter ops [] blocks).reverse

variable (count : Nat) (turnId : TurnId) (turn : Turn State) (blocks : List (Block State))
    (turns : List (Turn State))

theorem dropNewest_zero : dropNewest ops 0 turns = turns := by
  cases turns <;> rfl

theorem dropNewest_nil : dropNewest ops count ([] : List (Turn State)) = [] := by
  cases count <;> rfl

theorem dropNewest_add (first second : Nat) (turns : List (Turn State)) :
    dropNewest ops (first + second) turns = dropNewest ops second (dropNewest ops first turns) := by
  induction turns generalizing first with
  | nil => simp [dropNewest_nil]
  | cons turn turns ih =>
    cases first with
    | zero => rw [Nat.zero_add, dropNewest_zero]
    | succ first =>
      have further := ih (first + 1)
      rw [show first + 1 + second = first + second + 1 by omega] at further ⊢
      simp only [dropNewest]
      split
      · exact ih first
      · exact further

theorem removedBy_append_dropNewest :
    removedBy ops count turns ++ dropNewest ops count turns = turns := by
  induction turns generalizing count with
  | nil => cases count <;> rfl
  | cons turn turns ih =>
    cases count with
    | zero => rfl
    | succ count =>
      simp only [removedBy, dropNewest, cons_append]
      split
      · rw [ih]
      · rw [ih]

theorem userTurns_removedBy :
    userTurns ops (removedBy ops count turns) = min count (userTurns ops turns) := by
  induction turns generalizing count with
  | nil => cases count <;> simp [removedBy, userTurns]
  | cons turn turns ih =>
    cases count with
    | zero => simp [removedBy, userTurns]
    | succ count =>
      unfold userTurns at ih ⊢
      simp only [removedBy]
      cases user : turn.isUserTurn ops with
      | true =>
        simp only [if_true, countP_cons, user, ih]
        omega
      | false => simp [user, ih]

theorem userTurns_dropNewest :
    userTurns ops (dropNewest ops count turns) = userTurns ops turns - count := by
  have removed := userTurns_removedBy ops count turns
  have all := congrArg (userTurns ops) (removedBy_append_dropNewest ops count turns)
  unfold userTurns at removed all ⊢
  rw [countP_append] at all
  omega

theorem dropNewest_eq_nil (all : userTurns ops turns < count) :
    dropNewest ops count turns = [] := by
  induction turns generalizing count with
  | nil => exact dropNewest_nil ops count
  | cons turn turns ih =>
    obtain ⟨count, rfl⟩ : ∃ less, count = less + 1 := ⟨count - 1, by omega⟩
    simp only [userTurns, countP_cons] at all
    simp only [dropNewest]
    split
    · rename_i user
      rw [user] at all
      exact ih count (by unfold userTurns; simpa using all)
    · exact ih _ (by unfold userTurns; omega)

/-! ### Reading backward -/

def pendingAfter : List (Block State) → Nat
  | [] => 0
  | .wholeTurn turn :: later =>
    if turn.isUserTurn ops then pendingAfter later - 1 else pendingAfter later
  | .rolledBack numTurns :: later => pendingAfter later + numTurns

def notSkipped : List (Block State) → List (Turn State)
  | [] => []
  | .wholeTurn turn :: later =>
    if pendingAfter ops later = 0 then turn :: notSkipped later else notSkipped later
  | .rolledBack _ :: later => notSkipped later

def excess : List (Turn State) → List (Block State) → Nat
  | _, [] => 0
  | alive, .wholeTurn turn :: blocks => excess (turn :: alive) blocks
  | alive, .rolledBack numTurns :: blocks =>
    (numTurns - userTurns ops alive) + excess (dropNewest ops numTurns alive) blocks

def turnBlocks : List (Block State) := turns.map .wholeTurn

theorem turnBlocks_cons : turnBlocks (turn :: turns) = .wholeTurn turn :: turnBlocks turns := rfl

variable (alive : List (Turn State)) (later : List (Block State))

theorem turnBlocks_reverse_cons :
    turnBlocks (turn :: alive).reverse ++ later =
      turnBlocks alive.reverse ++ .wholeTurn turn :: later := by
  simp [turnBlocks]

theorem readBack_turns :
    notSkipped ops (turnBlocks alive.reverse ++ later) =
        (dropNewest ops (pendingAfter ops later) alive).reverse ++ notSkipped ops later ∧
      pendingAfter ops (turnBlocks alive.reverse ++ later) =
        pendingAfter ops later - userTurns ops alive := by
  induction alive generalizing later with
  | nil => simp [turnBlocks, dropNewest_nil, userTurns]
  | cons turn alive ih =>
    obtain ⟨turnsEq, pendingEq⟩ := ih (.wholeTurn turn :: later)
    rw [turnBlocks_reverse_cons, turnsEq, pendingEq]
    simp only [notSkipped, pendingAfter, userTurns]
    cases pending : pendingAfter ops later with
    | zero => cases turn.isUserTurn ops <;> simp [dropNewest_zero]
    | succ pending =>
      cases user : turn.isUserTurn ops <;> simp [dropNewest, user]

theorem readBack_alive (blocks : List (Block State)) :
    notSkipped ops (turnBlocks alive.reverse ++ blocks) = (aliveAfter ops alive blocks).reverse ∧
      pendingAfter ops (turnBlocks alive.reverse ++ blocks) = excess ops alive blocks := by
  induction blocks generalizing alive with
  | nil =>
    obtain ⟨turnsEq, pendingEq⟩ := readBack_turns ops alive []
    rw [turnsEq, pendingEq]
    simp [notSkipped, pendingAfter, dropNewest_zero, aliveAfter, excess]
  | cons block blocks ih =>
    cases block with
    | wholeTurn turn =>
      rw [← turnBlocks_reverse_cons]
      exact ih (turn :: alive)
    | rolledBack numTurns =>
      obtain ⟨turnsEq, pendingEq⟩ := readBack_turns ops alive (.rolledBack numTurns :: blocks)
      obtain ⟨laterTurns, laterPending⟩ := ih (dropNewest ops numTurns alive)
      obtain ⟨turnsAfter, pendingAfterEq⟩ :=
        readBack_turns ops (dropNewest ops numTurns alive) blocks
      rw [turnsEq, pendingEq]
      constructor
      · rw [aliveAfter, ← laterTurns, turnsAfter, ← dropNewest_add, Nat.add_comm]
        rfl
      · rw [excess, ← laterPending, pendingAfterEq, userTurns_dropNewest, pendingAfter]
        omega

theorem notSkipped_eq_survivors :
    notSkipped ops blocks = survivors ops blocks := (readBack_alive ops [] blocks).1

theorem pendingAfter_eq_excess :
    pendingAfter ops blocks = excess ops [] blocks := (readBack_alive ops [] blocks).2

/-! ### The newest-first pass over whole turns -/

def readRecords (turnId : TurnId) (after : List (RolloutItem State)) :
    List (RolloutItem State) → ActiveReplaySegment State
  | [] => { turnId := some turnId }
  | record :: records =>
    (readRecords turnId after records).observe ops record
      (records ++ .event (.turnComplete turnId) :: after)

def Turn.segment (turn : Turn State) (after : List (RolloutItem State)) :
    ActiveReplaySegment State :=
  readRecords ops turn.turnId after turn.records

variable (after records : List (RolloutItem State))

section

variable (stays : ∀ record ∈ records, StaysInSegment record)
include stays

theorem readRecords_turnId : (readRecords ops turnId after records).turnId = some turnId := by
  induction records with
  | nil => rfl
  | cons record records ih =>
    obtain ⟨head, rest⟩ := forall_mem_cons.mp stays
    rw [readRecords, turnId_observe ops _ _ _ head, ih rest]
    rfl

theorem readRecords_reverseReplay (unsettled : (reverseReplay ops after).settled = false)
    (closed : (reverseReplay ops after).activeSegment = none) :
    reverseReplay ops (records ++ .event (.turnComplete turnId) :: after) =
      (reverseReplay ops after).updated (readRecords ops turnId after records) := by
  induction records with
  | nil =>
    rw [nil_append, reverseReplay_cons ops _ unsettled]
    simp [ReverseReplay.observe, observe, ReverseReplay.segment, closed, readRecords]
  | cons record records ih =>
    obtain ⟨head, rest⟩ := forall_mem_cons.mp stays
    have read := ih rest
    have same : (reverseReplay ops (records ++ .event (.turnComplete turnId) :: after)).settled =
        false := by
      rw [read]
      exact unsettled
    rw [cons_append, reverseReplay_cons ops _ same]
    obtain ⟨active, observed, segmentEq, remains⟩ := observe_staysInSegment ops
      (reverseReplay ops (records ++ .event (.turnComplete turnId) :: after))
      (records ++ .event (.turnComplete turnId) :: after) head
    obtain ⟨segment, rfl⟩ := Option.isSome_iff_exists.mp (remains (by rw [read]; rfl))
    rw [observed]
    rw [Option.getD_some, read] at segmentEq
    rw [segmentEq, read]
    rfl

end

theorem reverseReplay_turn (unsettled : (reverseReplay ops after).settled = false)
    (closed : (reverseReplay ops after).activeSegment = none) :
    reverseReplay ops (turn.items ++ after) =
      (reverseReplay ops after).finalize (turn.segment ops after) := by
  have read := readRecords_reverseReplay ops turn.turnId after turn.records turn.stays unsettled
    closed
  have same : (reverseReplay ops
      (turn.records ++ .event (.turnComplete turn.turnId) :: after)).settled = false := by
    rw [read]
    exact unsettled
  have named := readRecords_turnId ops turn.turnId after turn.records turn.stays
  rw [Turn.items, cons_append, append_assoc, singleton_append, reverseReplay_cons ops _ same, read]
  simp only [ReverseReplay.observe, ReverseReplay.updated, named, compatible_some]
  rfl

theorem counts_readRecords (stays : ∀ record ∈ records, StaysInSegment record) :
    (readRecords ops turnId after records).countsAsUserTurn =
      records.any (countsAsUserTurn ops) := by
  induction records with
  | nil => rfl
  | cons record records ih =>
    obtain ⟨head, rest⟩ := forall_mem_cons.mp stays
    have read := ih rest
    rw [readRecords, any_cons, ← read]
    cases record with
    | turnContext context =>
      simp only [ActiveReplaySegment.observe, ActiveReplaySegment.context]
      split <;> rfl
    | event message => cases message <;> simp [ActiveReplaySegment.observe, countsAsUserTurn]
    | responseItem response =>
      exact Bool.or_comm _ _
    | _ => simp [ActiveReplaySegment.observe, ActiveReplaySegment.compact, countsAsUserTurn]

structure SameSegments (first second : ActiveReplaySegment State) : Prop where
  turnId : first.turnId = second.turnId
  counts : first.countsAsUserTurn = second.countsAsUserTurn
  settings : first.previousTurnSettings = second.previousTurnSettings
  reference : first.referenceContextItem = second.referenceContextItem
  world : first.worldStateReplay = second.worldStateReplay
  base : first.baseCompaction.map ReplayCheckpoint.compacted =
    second.baseCompaction.map ReplayCheckpoint.compacted

theorem SameSegments.observe {first second : ActiveReplaySegment State}
    (same : SameSegments first second) (item : RolloutItem State)
    (suffix other : List (RolloutItem State)) :
    SameSegments (first.observe ops item suffix) (second.observe ops item other) := by
  obtain ⟨turnId, counts, settings, reference, world, base⟩ := same
  cases item with
  | compacted compacted =>
    constructor
    case base =>
      simp only [ActiveReplaySegment.observe, ActiveReplaySegment.compact, Option.map_or,
        Option.map_map, base]
      rfl
    all_goals
      simp [ActiveReplaySegment.observe, ActiveReplaySegment.compact, turnId, counts, settings,
        reference, world]
  | turnContext context =>
    simp only [ActiveReplaySegment.observe, ActiveReplaySegment.context, turnId, reference]
    split <;> constructor <;> first | rfl | assumption
  | event message =>
    cases message <;> constructor <;>
      simp [ActiveReplaySegment.observe, turnId, counts, settings, reference, world, base]
  | _ =>
    constructor <;>
      simp [ActiveReplaySegment.observe, turnId, counts, settings, reference, world, base]

theorem sameSegments_turn (first second : List (RolloutItem State)) :
    SameSegments (turn.segment ops first) (turn.segment ops second) := by
  unfold Turn.segment
  induction turn.records with
  | nil => exact ⟨rfl, rfl, rfl, rfl, rfl, rfl⟩
  | cons record records ih => exact ih.observe ops record _ _

structure SameFinds (first second : ReverseReplay State) : Prop where
  base : first.baseCompaction.map ReplayCheckpoint.compacted =
    second.baseCompaction.map ReplayCheckpoint.compacted
  settings : first.previousTurnSettings = second.previousTurnSettings
  reference : first.referenceContextItem = second.referenceContextItem

theorem SameFinds.settled {first second : ReverseReplay State} (same : SameFinds first second) :
    first.settled = second.settled := by
  have base := congrArg Option.isSome same.base
  rw [Option.isSome_map] at base
  simp [ReverseReplay.settled, base, same.settings, same.reference]

theorem SameFinds.keep {first second : ReverseReplay State} (same : SameFinds first second)
    {segment other : ActiveReplaySegment State} (alike : SameSegments segment other) :
    SameFinds (first.keep segment) (second.keep other) := by
  have baseline : segment.hasContextBaseline = other.hasContextBaseline := by
    simp [hasContextBaseline, alike.counts, alike.world]
  constructor
  · simp [ReverseReplay.keep, Option.map_or, same.base, alike.base]
  · simp [ReverseReplay.keep, same.settings, baseline, alike.settings]
  · simp [ReverseReplay.keep, same.reference, baseline, alike.reference]

theorem itemsOf_turn : itemsOf (.wholeTurn turn :: later) = turn.items ++ itemsOf later := rfl

theorem itemsOf_rolledBack (numTurns : Nat) (later : List (Block State)) :
    itemsOf (.rolledBack numTurns :: later) =
      .event (.threadRolledBack numTurns) :: itemsOf later := rfl

structure PassesAlike (blocks : List (Block State)) : Prop where
  closed : (reverseReplay ops (itemsOf blocks)).activeSegment = none
  pending : (reverseReplay ops (itemsOf blocks)).settled = false →
    (reverseReplay ops (itemsOf blocks)).pendingRollbackTurns = pendingAfter ops blocks
  turnsClosed :
    (reverseReplay ops (itemsOf (turnBlocks (notSkipped ops blocks)))).activeSegment = none
  turnsPending :
    (reverseReplay ops (itemsOf (turnBlocks (notSkipped ops blocks)))).pendingRollbackTurns = 0
  finds : SameFinds (reverseReplay ops (itemsOf blocks))
    (reverseReplay ops (itemsOf (turnBlocks (notSkipped ops blocks))))

section Passes

variable {ops} {later} (alike : PassesAlike ops later)
include alike

theorem PassesAlike.ended (block : Block State)
    (settled : (reverseReplay ops (itemsOf later)).settled = true) :
    PassesAlike ops (block :: later) := by
  have read : reverseReplay ops (itemsOf (block :: later)) = reverseReplay ops (itemsOf later) :=
    reverseReplay_settled ops block.items (itemsOf later) settled
  have turnsRead : reverseReplay ops (itemsOf (turnBlocks (notSkipped ops (block :: later)))) =
      reverseReplay ops (itemsOf (turnBlocks (notSkipped ops later))) := by
    cases block with
    | rolledBack numTurns => rfl
    | wholeTurn turn =>
      simp only [notSkipped]
      split
      · exact reverseReplay_settled ops turn.items _ (alike.finds.settled ▸ settled)
      · rfl
  constructor
  · rw [read]
    exact alike.closed
  · rw [read, settled]
    nofun
  · rw [turnsRead]
    exact alike.turnsClosed
  · rw [turnsRead]
    exact alike.turnsPending
  · rw [read, turnsRead]
    exact alike.finds

theorem PassesAlike.rolledBack (numTurns : Nat)
    (unsettled : (reverseReplay ops (itemsOf later)).settled = false) :
    PassesAlike ops (.rolledBack numTurns :: later) := by
  have read : reverseReplay ops (itemsOf (.rolledBack numTurns :: later)) =
      { reverseReplay ops (itemsOf later) with
        pendingRollbackTurns :=
          (reverseReplay ops (itemsOf later)).pendingRollbackTurns + numTurns } :=
    reverseReplay_cons ops (.event (.threadRolledBack numTurns)) unsettled
  constructor
  · rw [read]
    exact alike.closed
  · intro _
    rw [read, pendingAfter, ← alike.pending unsettled]
  · exact alike.turnsClosed
  · exact alike.turnsPending
  · rw [read]
    exact ⟨alike.finds.base, alike.finds.settings, alike.finds.reference⟩

variable (unsettled : (reverseReplay ops (itemsOf later)).settled = false)
include unsettled

theorem PassesAlike.skipped
    (pending : 0 < pendingAfter ops later) : PassesAlike ops (.wholeTurn turn :: later) := by
  have held := alike.pending unsettled
  have read : reverseReplay ops (itemsOf (.wholeTurn turn :: later)) =
      (reverseReplay ops (itemsOf later)).skip (turn.segment ops (itemsOf later)) := by
    rw [itemsOf_turn, reverseReplay_turn ops turn _ unsettled alike.closed,
      ReverseReplay.finalize, if_pos (held ▸ pending)]
  have turns : notSkipped ops (.wholeTurn turn :: later) = notSkipped ops later := by
    simp only [notSkipped]
    rw [if_neg (by omega)]
  have counts : (turn.segment ops (itemsOf later)).countsAsUserTurn = turn.isUserTurn ops :=
    counts_readRecords ops _ _ _ turn.stays
  constructor
  · rw [read]
    rfl
  · simp [read, ReverseReplay.skip, counts, held, pendingAfter]
  · rw [turns]
    exact alike.turnsClosed
  · rw [turns]
    exact alike.turnsPending
  · rw [read, turns]
    exact ⟨alike.finds.base, alike.finds.settings, alike.finds.reference⟩

theorem PassesAlike.kept
    (pending : pendingAfter ops later = 0) : PassesAlike ops (.wholeTurn turn :: later) := by
  have held := alike.pending unsettled
  have read : reverseReplay ops (itemsOf (.wholeTurn turn :: later)) =
      (reverseReplay ops (itemsOf later)).keep (turn.segment ops (itemsOf later)) := by
    rw [itemsOf_turn, reverseReplay_turn ops turn _ unsettled alike.closed,
      finalize_keep _ _ (held.trans pending)]
  have turns : notSkipped ops (.wholeTurn turn :: later) = turn :: notSkipped ops later := by
    simp [notSkipped, pending]
  have turnsRead : reverseReplay ops
      (itemsOf (turnBlocks (notSkipped ops (.wholeTurn turn :: later)))) =
        (reverseReplay ops (itemsOf (turnBlocks (notSkipped ops later)))).keep
          (turn.segment ops (itemsOf (turnBlocks (notSkipped ops later)))) := by
    rw [turns, turnBlocks_cons, itemsOf_turn,
      reverseReplay_turn ops turn _ (alike.finds.settled ▸ unsettled) alike.turnsClosed]
    exact finalize_keep _ _ alike.turnsPending
  constructor
  · rw [read]
    rfl
  · simp [read, ReverseReplay.keep, held, pendingAfter, pending]
  · rw [turnsRead]
    rfl
  · rw [turnsRead]
    exact alike.turnsPending
  · rw [read, turnsRead]
    exact alike.finds.keep (sameSegments_turn ops turn _ _)

end Passes

theorem passesAlike : PassesAlike ops blocks := by
  induction blocks with
  | nil => exact ⟨rfl, fun _ => rfl, rfl, rfl, rfl, rfl, rfl⟩
  | cons block later ih =>
    cases settled : (reverseReplay ops (itemsOf later)).settled with
    | true => exact ih.ended block settled
    | false =>
      cases block with
      | rolledBack numTurns => exact ih.rolledBack numTurns settled
      | wholeTurn turn =>
        cases Nat.eq_zero_or_pos (pendingAfter ops later) with
        | inl none => exact ih.kept turn settled none
        | inr some => exact ih.skipped turn settled some

/-! ### The forward replay over whole turns -/

def checkpointHistory : List (RolloutItem State) → Option (List ResponseItemEnvelope)
  | [] => none
  | record :: records =>
    (checkpointHistory records).or <|
      match record with
      | .compacted compacted =>
        compacted.replacementHistory.map fun history =>
          history ++ records.filterMap (recordedEntry ops)
      | _ => none

def resumePoint : List (Block State) → Option (List ResponseItemEnvelope × List (Block State))
  | [] => none
  | .wholeTurn turn :: later =>
    (resumePoint later).or <|
      if pendingAfter ops later = 0 then
        (checkpointHistory ops turn.records).map fun history => (history, later)
      else none
  | .rolledBack _ :: later => resumePoint later

def resumedHistory (blocks : List (Block State)) : List ResponseItemEnvelope :=
  match resumePoint ops blocks with
  | some (history, later) => replayItems ops history (itemsOf later)
  | none => replayItems ops [] (itemsOf blocks)

def TurnRecord (record : RolloutItem State) : Prop :=
  StaysInSegment record ∧
    ∀ compacted, record = .compacted compacted → compacted.replacementHistory.isSome = true

theorem Turn.inside : ∀ record ∈ turn.records, TurnRecord record :=
  fun record member => ⟨turn.stays record member,
    fun compacted equal => turn.checkpoints compacted (equal ▸ member)⟩

variable {records} (history : List ResponseItemEnvelope)

theorem replayItem_record (record : RolloutItem State) (inside : TurnRecord record) :
    replayItem ops history record = history ++ (recordedEntry ops record).toList := by
  cases record with
  | responseItem response =>
    simp only [replayItem, recordItem, recordedEntry]
    split <;> simp
  | interAgentCommunication author recipient content turnId => rfl
  | compacted compacted =>
    have held := inside.2 compacted rfl
    simp [replayItem, recordedEntry, ← Option.not_isSome, held]
  | event message =>
    cases message with
    | threadRolledBack numTurns => exact inside.1.elim
    | _ => simp [replayItem, recordedEntry]
  | _ => simp [replayItem, recordedEntry]

variable (after : List (RolloutItem State))

section

variable (inside : ∀ record ∈ records, TurnRecord record)
include inside

theorem replayItems_records :
    replayItems ops history (records ++ after) =
      replayItems ops (history ++ records.filterMap (recordedEntry ops)) after := by
  induction records generalizing history with
  | nil => simp
  | cons record records ih =>
    obtain ⟨head, rest⟩ := forall_mem_cons.mp inside
    have later := ih (history ++ (recordedEntry ops record).toList) rest
    rw [cons_append, replayItems, foldl_cons, replayItem_record ops history record head]
    rw [replayItems] at later
    rw [later, append_assoc, filterMap_cons]
    cases recordedEntry ops record <;> rfl

theorem sawLegacyCompaction_records :
    sawLegacyCompaction (records ++ after) = sawLegacyCompaction after := by
  have none : sawLegacyCompaction records = false := by
    simp only [sawLegacyCompaction, any_eq_false]
    intro record member
    cases record with
    | compacted compacted => simp [← Option.not_isSome, (inside _ member).2 compacted rfl]
    | _ => nofun
  simp only [sawLegacyCompaction, any_append] at none ⊢
  rw [none, Bool.false_or]

end

theorem sawLegacyCompaction_blocks : sawLegacyCompaction (itemsOf blocks) = false := by
  induction blocks with
  | nil => rfl
  | cons block later ih =>
    cases block with
    | rolledBack numTurns => exact ih
    | wholeTurn turn =>
      have records := sawLegacyCompaction_records
        (.event (.turnComplete turn.turnId) :: itemsOf later) turn.inside
      rw [itemsOf_turn, Turn.items, cons_append, append_assoc]
      exact records.trans ih

theorem replayItems_turn :
    replayItems ops history (turn.items ++ after) =
      replayItems ops (history ++ turn.recorded ops) after := by
  rw [Turn.items, cons_append, append_assoc]
  exact replayItems_records ops history (.event (.turnComplete turn.turnId) :: after) turn.inside

def Resumes : Option (ReplayCheckpoint State) →
    Option (List ResponseItemEnvelope × List (RolloutItem State)) → Prop
  | some checkpoint, some (history, items) =>
    replayItems ops (checkpoint.compacted.replacementHistory.getD []) checkpoint.suffix =
        replayItems ops history items ∧
      sawLegacyCompaction checkpoint.suffix = false
  | none, none => True
  | _, _ => False

theorem Resumes.or {base other : Option (ReplayCheckpoint State)}
    {point otherPoint : Option (List ResponseItemEnvelope × List (RolloutItem State))}
    (first : Resumes ops base point) (second : Resumes ops other otherPoint) :
    Resumes ops (base.or other) (point.or otherPoint) := by
  cases base <;> cases point <;> first | exact first.elim | exact second | exact first

theorem resumes_readRecords (inside : ∀ record ∈ records, TurnRecord record)
    (modern : sawLegacyCompaction after = false) :
    Resumes ops (readRecords ops turnId after records).baseCompaction
      ((checkpointHistory ops records).map fun history => (history, after)) := by
  induction records with
  | nil => trivial
  | cons record records ih =>
    obtain ⟨head, rest⟩ := forall_mem_cons.mp inside
    have unchanged : Resumes ops (readRecords ops turnId after records).baseCompaction
        (((checkpointHistory ops records).or none).map fun history => (history, after)) := by
      rw [Option.or_none]
      exact ih rest
    cases record with
    | compacted compacted =>
      obtain ⟨history, held⟩ := Option.isSome_iff_exists.mp (head.2 compacted rfl)
      simp only [readRecords, checkpointHistory, observe,
        compact, held, Option.map_some, Option.map_or]
      apply (ih rest).or
      simp only [Resumes, held, Option.getD_some]
      constructor
      · rw [replayItems_records ops history _ rest]
        rfl
      · rw [sawLegacyCompaction_records _ rest]
        exact modern
    | turnContext context =>
      have same : (readRecords ops turnId after (.turnContext context :: records)).baseCompaction
          = (readRecords ops turnId after records).baseCompaction := by
        simp only [readRecords, ActiveReplaySegment.observe, ActiveReplaySegment.context]
        split <;> rfl
      rw [same]
      exact unchanged
    | event message => cases message <;> exact unchanged
    | _ => exact unchanged

theorem resumes_blocks :
    Resumes ops (reverseReplay ops (itemsOf blocks)).baseCompaction
      ((resumePoint ops blocks).map fun point => (point.1, itemsOf point.2)) := by
  induction blocks with
  | nil => trivial
  | cons block later ih =>
    have alike := passesAlike ops later
    cases settled : (reverseReplay ops (itemsOf later)).settled with
    | true =>
      have read : reverseReplay ops (itemsOf (block :: later)) =
          reverseReplay ops (itemsOf later) :=
        reverseReplay_settled ops block.items (itemsOf later) settled
      rw [read]
      cases block with
      | rolledBack numTurns => exact ih
      | wholeTurn turn =>
        simp only [ReverseReplay.settled, and_eq_true] at settled
        obtain ⟨checkpoint, held⟩ := Option.isSome_iff_exists.mp settled.1.1
        rw [held] at ih ⊢
        simp only [resumePoint]
        cases point : resumePoint ops later with
        | none =>
          rw [point] at ih
          exact ih.elim
        | some found =>
          rw [point] at ih
          exact ih
    | false =>
      cases block with
      | rolledBack numTurns =>
        have read := reverseReplay_cons ops (.event (.threadRolledBack numTurns)) settled
        rw [itemsOf_rolledBack, read]
        exact ih
      | wholeTurn turn =>
        have pending := alike.pending settled
        rw [itemsOf_turn, reverseReplay_turn ops turn _ settled alike.closed,
          ReverseReplay.finalize, pending]
        simp only [resumePoint]
        cases Nat.eq_zero_or_pos (pendingAfter ops later) with
        | inr skipped =>
          rw [if_pos skipped, if_neg (by omega), Option.or_none]
          exact ih
        | inl none =>
          rw [if_neg (by omega), if_pos none, Option.map_or, Option.map_map]
          exact ih.or ops
            (resumes_readRecords ops turn.turnId _ turn.inside (sawLegacyCompaction_blocks later))

theorem closed_blocks :
    (reverseReplay ops (itemsOf blocks)).closed = reverseReplay ops (itemsOf blocks) := by
  simp [ReverseReplay.closed, (passesAlike ops blocks).closed]

theorem reconstruct_blocks :
    (reconstructHistoryFromRollout ops (itemsOf blocks)).history = resumedHistory ops blocks ∧
      (reconstructHistoryFromRollout ops (itemsOf blocks)).referenceContextItem =
        (reverseReplay ops (itemsOf blocks)).referenceContextItem.toOption := by
  have resumes := resumes_blocks ops blocks
  have modern := sawLegacyCompaction_blocks blocks
  simp only [reconstructHistoryFromRollout, closed_blocks, resumedHistory]
  cases base : (reverseReplay ops (itemsOf blocks)).baseCompaction <;>
    cases point : resumePoint ops blocks <;> rw [base, point] at resumes
  case none.none => exact ⟨rfl, by simp [modern]⟩
  case some.some => exact ⟨resumes.1, by simp [resumes.2]⟩
  all_goals exact resumes.elim

theorem pendingAfter_turnBlocks : pendingAfter ops (turnBlocks turns) = 0 := by
  induction turns with
  | nil => rfl
  | cons turn turns ih =>
    rw [turnBlocks_cons, pendingAfter, ih]
    split <;> rfl

theorem resumePoint_notSkipped :
    resumePoint ops (turnBlocks (notSkipped ops blocks)) = (resumePoint ops blocks).map fun point =>
        (point.1, turnBlocks (notSkipped ops point.2)) := by
  induction blocks with
  | nil => rfl
  | cons block later ih =>
    cases block with
    | rolledBack numTurns => exact ih
    | wholeTurn turn =>
      simp only [notSkipped, resumePoint]
      split
      · rw [turnBlocks_cons, resumePoint, pendingAfter_turnBlocks, ih,
          Option.map_or, Option.map_map]
        rfl
      · rw [Option.or_none]
        exact ih

theorem pendingAfter_resumePoint {later : List (Block State)} {history : List ResponseItemEnvelope}
    (point : resumePoint ops blocks = some (history, later)) : pendingAfter ops later = 0 := by
  induction blocks with
  | nil => cases point
  | cons block blocks ih =>
    cases block with
    | rolledBack numTurns => exact ih point
    | wholeTurn turn =>
      simp only [resumePoint, Option.or_eq_some_iff] at point
      rcases point with found | ⟨_, here⟩
      · exact ih found
      · split at here
        · rename_i none
          obtain ⟨_, _, equal⟩ := Option.map_eq_some_iff.mp here
          cases equal
          exact none
        · cases here

/-! ### Rollbacks that cut whole turns -/

def entriesOf : List ResponseItemEnvelope :=
  turns.reverse.flatMap (Turn.recorded ops)

/-- Dropping `removed` behind `kept` by counting user messages drops whole turns: each user turn
has one user message; when an earlier user message is kept, what precedes the first dropped one
in its turn is contextual and what is kept does not end in a contextual item; when none is kept,
the first dropped one starts its turn and no kept text is rebuilt. -/
structure WholeTurnCut (kept : List ResponseItemEnvelope) (removed : List (Turn State)) :
    Prop where
  single : ∀ turn ∈ removed, turn.isUserTurn ops = true →
    (turn.recorded ops).countP (isBoundary ops) = 1
  behind : (∃ item ∈ kept, isBoundary ops item = true) →
    (∀ item ∈ (entriesOf ops removed).takeWhile (fun item => !isBoundary ops item),
      isContextual ops item = true) ∧
    ∀ item ∈ kept.getLast?, isContextual ops item = false
  first : (∀ item ∈ kept, isBoundary ops item = false) →
    (entriesOf ops removed).takeWhile (fun item => !isBoundary ops item) = [] ∧
    ∀ boundary ∈ (entriesOf ops removed).head?, ∀ turnId ∈ boundary.turnId,
      ∀ item ∈ kept, withoutRebuiltContent ops turnId item = some item

/-- Every marker of the blocks cuts whole turns, in the state of the replay that meets it: the
history `start`, then the turns alive since. -/
def WholeTurnCuts (start : List ResponseItemEnvelope) :
    List (Turn State) → List (Block State) → Prop
  | _, [] => True
  | alive, .wholeTurn turn :: blocks => WholeTurnCuts start (turn :: alive) blocks
  | alive, .rolledBack numTurns :: blocks =>
    (0 < numTurns → WholeTurnCut ops (start ++ entriesOf ops (dropNewest ops numTurns alive))
      (removedBy ops numTurns alive)) ∧
    WholeTurnCuts start (dropNewest ops numTurns alive) blocks

theorem entriesOf_append (newer older : List (Turn State)) :
    entriesOf ops (newer ++ older) = entriesOf ops older ++ entriesOf ops newer := by
  simp [entriesOf]

theorem entriesOf_cons :
    entriesOf ops (turn :: turns) = entriesOf ops turns ++ turn.recorded ops := by
  simp [entriesOf]

theorem not_isBoundary_of_recorded (user : turn.isUserTurn ops = false) :
    ∀ item ∈ turn.recorded ops, isBoundary ops item = false := by
  intro item member
  obtain ⟨record, listed, entry⟩ := mem_filterMap.mp member
  have plain := any_eq_false.mp user record listed
  cases record with
  | responseItem response =>
    simp only [recordedEntry] at entry
    split at entry
    · cases entry
      rw [isBoundary]
      simpa [countsAsUserTurn] using plain
    · cases entry
  | interAgentCommunication author recipient content turnId =>
    exact absurd rfl plain
  | _ => cases entry

variable {removed : List (Turn State)}

theorem countP_entriesOf
    (single : ∀ turn ∈ removed, turn.isUserTurn ops = true →
      (turn.recorded ops).countP (isBoundary ops) = 1) :
    (entriesOf ops removed).countP (isBoundary ops) = userTurns ops removed := by
  induction removed with
  | nil => rfl
  | cons turn turns ih =>
    obtain ⟨head, rest⟩ := forall_mem_cons.mp single
    rw [entriesOf_cons, countP_append, ih rest, userTurns, userTurns, countP_cons]
    cases user : turn.isUserTurn ops with
    | true => simpa using head user
    | false =>
      have none := not_isBoundary_of_recorded ops turn user
      simpa using none

variable (items : List ResponseItemEnvelope)

theorem split_at_boundary (some : 0 < items.countP (isBoundary ops)) :
    ∃ boundary rest, isBoundary ops boundary = true ∧
      items = items.takeWhile (fun item => !isBoundary ops item) ++ boundary :: rest := by
  induction items with
  | nil => cases some
  | cons item items ih =>
    cases opens : isBoundary ops item with
    | true => exact ⟨item, items, opens, by simp [opens]⟩
    | false =>
      rw [countP_cons, opens] at some
      obtain ⟨boundary, rest, isOpen, split⟩ := ih (by simpa using some)
      refine ⟨boundary, rest, isOpen, ?_⟩
      rw [takeWhile_cons, opens]
      exact congrArg (item :: ·) split

theorem countP_takeWhile :
    (items.takeWhile fun item => !isBoundary ops item).countP (isBoundary ops) = 0 := by
  rw [countP_eq_zero]
  intro item member
  simpa using mem_takeWhile_imp member

theorem WholeTurnCut.dropLastNUserTurns {kept : List ResponseItemEnvelope}
    (cut : WholeTurnCut ops kept removed) (numTurns : Nat) (few : userTurns ops removed ≤ numTurns)
    (all : (∃ item ∈ kept, isBoundary ops item = true) → userTurns ops removed = numTurns)
    (positive : 0 < numTurns) :
    dropLastNUserTurns ops numTurns (kept ++ entriesOf ops removed) = kept := by
  have count := countP_entriesOf ops cut.single
  by_cases earlier : ∃ item ∈ kept, isBoundary ops item = true
  · obtain ⟨contextual, last⟩ := cut.behind earlier
    rw [all earlier] at count
    obtain ⟨boundary, rest, opens, split⟩ := split_at_boundary ops (entriesOf ops removed) (by omega)
    have counted : (boundary :: rest).countP (isBoundary ops) = numTurns := by
      rw [split, countP_append, countP_takeWhile, Nat.zero_add] at count
      exact count
    rw [split, ← append_assoc]
    exact dropLastNUserTurns_behind ops numTurns opens earlier counted
      contextual last
  · have none : ∀ item ∈ kept, isBoundary ops item = false := by
      intro item member
      exact eq_false_iff.mpr fun opens => earlier ⟨item, member, opens⟩
    obtain ⟨starts, own⟩ := cut.first none
    cases entries : entriesOf ops removed with
    | nil =>
      rw [append_nil]
      exact dropLastNUserTurns_none ops numTurns kept none
    | cons boundary rest =>
      rw [entries] at starts own count
      have opens : isBoundary ops boundary = true := by
        cases opens : isBoundary ops boundary with
        | true => rfl
        | false =>
          rw [takeWhile_cons, opens] at starts
          cases starts
      exact dropLastNUserTurns_first ops numTurns opens none (by omega)
        (own boundary rfl)

theorem dropLastNUserTurns_alive {start : List ResponseItemEnvelope} {alive : List (Turn State)}
    {numTurns : Nat}
    (cut : 0 < numTurns → WholeTurnCut ops (start ++ entriesOf ops (dropNewest ops numTurns alive))
      (removedBy ops numTurns alive)) (within : numTurns ≤ userTurns ops alive ∨ start = []) :
    dropLastNUserTurns ops numTurns (start ++ entriesOf ops alive) =
      start ++ entriesOf ops (dropNewest ops numTurns alive) := by
  cases Nat.eq_zero_or_pos numTurns with
  | inl zero =>
    rw [zero, dropNewest_zero, ContextHistory.dropLastNUserTurns, if_pos rfl]
  | inr positive =>
    have count := userTurns_removedBy ops numTurns alive
    have entries : entriesOf ops alive = entriesOf ops (dropNewest ops numTurns alive) ++
        entriesOf ops (removedBy ops numTurns alive) := by
      rw [← entriesOf_append, removedBy_append_dropNewest]
    rw [entries, ← append_assoc]
    apply (cut positive).dropLastNUserTurns ops numTurns (by omega) _ positive
    rintro ⟨item, member, _⟩
    by_cases enough : numTurns ≤ userTurns ops alive
    · omega
    · -- more turns than there are leave nothing to keep
      rw [within.resolve_left enough, dropNewest_eq_nil ops numTurns alive (by omega)] at member
      cases member

variable (start : List ResponseItemEnvelope)

theorem replayItems_blocks (alive : List (Turn State))
    (blocks : List (Block State)) (cuts : WholeTurnCuts ops start alive blocks)
    (within : excess ops alive blocks = 0 ∨ start = []) :
    replayItems ops (start ++ entriesOf ops alive) (itemsOf blocks) =
      start ++ entriesOf ops (aliveAfter ops alive blocks) := by
  induction blocks generalizing alive with
  | nil => rfl
  | cons block blocks ih =>
    cases block with
    | wholeTurn turn =>
      rw [itemsOf_turn, replayItems_turn, append_assoc, ← entriesOf_cons]
      exact ih (turn :: alive) cuts within
    | rolledBack numTurns =>
      obtain ⟨cut, later⟩ := cuts
      have dropped := dropLastNUserTurns_alive ops cut
        (within.imp_left fun none => by
          have here := (Nat.add_eq_zero_iff.mp none).1
          omega)
      rw [aliveAfter,
        ← ih _ later (within.imp_left fun none => (Nat.add_eq_zero_iff.mp none).2), ← dropped]
      rfl

theorem replayItems_turnBlocks : replayItems ops start (itemsOf (turnBlocks turns)) =
      start ++ turns.flatMap (Turn.recorded ops) := by
  induction turns generalizing start with
  | nil => exact (append_nil start).symm
  | cons turn turns ih =>
    rw [turnBlocks_cons, itemsOf_turn, replayItems_turn, ih, flatMap_cons, append_assoc]

/-- Every marker that the replay meets cuts whole turns: the replay starts behind the newest
surviving checkpoint, or at the beginning. -/
def RollsBackWholeTurns (blocks : List (Block State)) : Prop :=
  match resumePoint ops blocks with
  | some (history, later) => WholeTurnCuts ops history [] later
  | none => WholeTurnCuts ops [] [] blocks

theorem resumedHistory_survivors (cuts : RollsBackWholeTurns ops blocks) :
    resumedHistory ops blocks = resumedHistory ops (turnBlocks (survivors ops blocks)) := by
  have same := resumePoint_notSkipped ops blocks
  rw [notSkipped_eq_survivors] at same
  unfold RollsBackWholeTurns at cuts
  unfold resumedHistory
  rw [same]
  cases point : resumePoint ops blocks with
  | none =>
    rw [point] at cuts
    have replayed := replayItems_blocks ops [] [] blocks cuts (.inr rfl)
    rw [replayItems_turnBlocks, survivors]
    exact replayed
  | some found =>
    obtain ⟨history, later⟩ := found
    rw [point] at cuts
    have none : excess ops [] later = 0 := (pendingAfter_eq_excess ops later).symm.trans
        (pendingAfter_resumePoint ops blocks point)
    have replayed := replayItems_blocks ops history [] later cuts (.inl none)
    rw [show entriesOf ops ([] : List (Turn State)) = [] from rfl, append_nil] at replayed
    calc
      _ = history ++ entriesOf ops (aliveAfter ops [] later) := replayed
      _ = replayItems ops history (itemsOf (turnBlocks (notSkipped ops later))) := by
          rw [replayItems_turnBlocks, notSkipped_eq_survivors]
          rfl

structure InStep (blocks : List (Block State)) (turns : List (Turn State)) : Prop where
  history : (reconstructHistoryFromRollout ops (itemsOf blocks)).history =
    (reconstructHistoryFromRollout ops (itemsOf (turnBlocks turns))).history
  settings : (reconstructHistoryFromRollout ops (itemsOf blocks)).previousTurnSettings =
    (reconstructHistoryFromRollout ops (itemsOf (turnBlocks turns))).previousTurnSettings
  reference : (reconstructHistoryFromRollout ops (itemsOf blocks)).referenceContextItem =
    (reconstructHistoryFromRollout ops (itemsOf (turnBlocks turns))).referenceContextItem
  base : (reverseReplay ops (itemsOf blocks)).closed.baseCompaction.map ReplayCheckpoint.compacted =
    (reverseReplay ops (itemsOf (turnBlocks turns))).closed.baseCompaction.map
      ReplayCheckpoint.compacted

/-- Markers that roll whole turns back keep the history and the metadata in step: both are those
of the surviving turns. -/
theorem rollback_in_step (blocks : List (Block State)) (cuts : RollsBackWholeTurns ops blocks) :
    InStep ops blocks (survivors ops blocks) := by
  have finds := (passesAlike ops blocks).finds
  rw [notSkipped_eq_survivors] at finds
  constructor
  · rw [(reconstruct_blocks ops _).1, (reconstruct_blocks ops _).1]
    exact resumedHistory_survivors ops blocks cuts
  · simp only [reconstructHistoryFromRollout, closed_blocks]
    exact finds.settings
  · rw [(reconstruct_blocks ops _).2, (reconstruct_blocks ops _).2, finds.reference]
  · rw [closed_blocks, closed_blocks]
    exact finds.base

def messageTurn (turnId model : Char) (checkpoint : Option (List ResponseItemEnvelope))
    (messages : List (Role × Char)) : Turn Unit where
  turnId := [turnId]
  records := contextOf [turnId] [model] ::
    (checkpoint.toList.map fun history =>
        .compacted ⟨[], some history, some 1, none, none, none⟩) ++
      messages.map fun message =>
        .responseItem ⟨.message message.1 [.inputText [message.2]], none, false, none⟩
  stays := by
    intro record member
    simp only [cons_append, mem_cons, mem_append, mem_map] at member
    rcases member with rfl | ⟨_, _, rfl⟩ | ⟨_, _, rfl⟩ <;> trivial
  checkpoints := by
    intro compacted member
    simp only [cons_append, mem_cons, mem_append, mem_map] at member
    rcases member with other | ⟨_, _, equal⟩ | ⟨_, _, other⟩
    · cases other
    · cases equal
      rfl
    · cases other

def firstTurn : Turn Unit := messageTurn 'a' 'm' none [(.user, 'h'), (.assistant, 'o')]

def compactedTurn : Turn Unit :=
  messageTurn 'b' 'n' (some [⟨.message .user [.inputText ['s']], none, false, none⟩])
    [(.user, 'i'), (.assistant, 'p')]

def droppedTurn : Turn Unit := messageTurn 'c' 'q' none [(.user, 'j'), (.assistant, 'r')]

def lastTurn : Turn Unit := messageTurn 'd' 't' none [(.user, 'k')]

theorem dropped_turn_in_step :
    survivors plainOps [.wholeTurn firstTurn, .wholeTurn compactedTurn, .wholeTurn droppedTurn,
        .rolledBack 1, .wholeTurn lastTurn] = [firstTurn, compactedTurn, lastTurn] ∧
      InStep plainOps [.wholeTurn firstTurn, .wholeTurn compactedTurn, .wholeTurn droppedTurn,
        .rolledBack 1, .wholeTurn lastTurn]
        (survivors plainOps [.wholeTurn firstTurn, .wholeTurn compactedTurn,
          .wholeTurn droppedTurn, .rolledBack 1, .wholeTurn lastTurn]) := by
  refine ⟨rfl, rollback_in_step plainOps _ ?_⟩
  exact ⟨fun _ => ⟨by decide, by decide, by decide⟩, trivial⟩

def steeredTurn : Turn Unit := messageTurn 'b' 'n' none [(.user, 'i'), (.user, 'j')]

/-- Rolling two turns back drops the two messages of the steered turn from the history, but both
turns from the metadata: no sequence of turns has both. -/
theorem steered_turn_out_of_step :
    ¬ ∃ turns : List (Turn Unit), turns.Sublist [firstTurn, steeredTurn] ∧
      InStep plainOps [.wholeTurn firstTurn, .wholeTurn steeredTurn, .rolledBack 2] turns := by
  rintro ⟨turns, kept, inStep⟩
  have history := inStep.history
  have settings := inStep.settings
  cases kept with
  | cons _ kept =>
    cases kept with
    | cons _ kept | cons_cons _ kept =>
      cases kept
      exact absurd history (by decide +kernel)
  | cons_cons _ kept =>
    cases kept with
    | cons _ kept =>
      cases kept
      exact absurd settings (by decide +kernel)
    | cons_cons _ kept =>
      cases kept
      exact absurd history (by decide +kernel)

end OpenInterpreter.TurnRollback
