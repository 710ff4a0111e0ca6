import Mathlib.Data.List.GetD
import OpenInterpreter.Rollout

/-! The model-visible history of `core/src/context_manager/history.rs`: recording an item and
replaying a rollback marker. -/

namespace OpenInterpreter.ContextHistory

open Rollout List Option Bool

variable {State Snapshot : Type} (ops : ReplayOps State Snapshot)

def recordItem (history : List ResponseItemEnvelope) (envelope : ResponseItemEnvelope) :
    List ResponseItemEnvelope :=
  if isApiMessage envelope then history ++ [processed ops envelope] else history

def userMessagePositions (items : List ResponseItemEnvelope) : List Nat :=
  (items.zipIdx.filter fun entry => isUserTurnBoundary ops entry.1.item).map Prod.snd

def trimPreTurnContextUpdates (snapshot : List ResponseItemEnvelope)
    (firstInstructionTurnIdx : Nat) : Nat → Nat
  | 0 => 0
  | cutIdx + 1 =>
    if firstInstructionTurnIdx < cutIdx + 1 ∧
        snapshot[cutIdx]?.any (fun envelope => isPreTurnContextUpdate ops envelope.item) then
      trimPreTurnContextUpdates snapshot firstInstructionTurnIdx cutIdx
    else cutIdx + 1

/-- The `retain_mut` of `drop_last_n_user_turns`: a developer message of the first turn loses
the texts that the next step rebuilds, and goes when nothing else is in it. -/
def withoutRebuiltContent (firstTurnId : TurnId) (envelope : ResponseItemEnvelope) :
    Option ResponseItemEnvelope :=
  match envelope.item with
  | .message .developer content =>
    if envelope.turnId = some firstTurnId then
      let content := content.filter fun item =>
        match item with
        | .inputText text => !ops.rebuiltAfterRollback text
        | _ => true
      if content = [] then none
      else some { envelope with item := .message .developer content }
    else some envelope
  | _ => some envelope

def dropLastNUserTurns (numTurns : Nat) (snapshot : List ResponseItemEnvelope) :
    List ResponseItemEnvelope :=
  if numTurns = 0 then snapshot
  else
    let userPositions := userMessagePositions ops snapshot
    match userPositions.head? with
    | none => snapshot
    | some firstInstructionTurnIdx =>
      let cutIdx :=
        if userPositions.length ≤ numTurns then firstInstructionTurnIdx
        else userPositions.getD (userPositions.length - numTurns) firstInstructionTurnIdx
      let cutIdx := trimPreTurnContextUpdates ops snapshot firstInstructionTurnIdx cutIdx
      let retained := snapshot.take cutIdx
      match snapshot[firstInstructionTurnIdx]?.bind ResponseItemEnvelope.turnId with
      | some firstTurnId =>
        if cutIdx = firstInstructionTurnIdx then
          retained.filterMap (withoutRebuiltContent ops firstTurnId)
        else retained
      | none => retained

def isBoundary (envelope : ResponseItemEnvelope) : Bool := isUserTurnBoundary ops envelope.item

def isContextual (envelope : ResponseItemEnvelope) : Bool :=
  isPreTurnContextUpdate ops envelope.item

def positionsFrom (first : Nat) (items : List ResponseItemEnvelope) : List Nat :=
  ((items.zipIdx first).filter fun entry => isBoundary ops entry.1).map Prod.snd

variable (numTurns : Nat) (snapshot : List ResponseItemEnvelope) (first : Nat)
  (items : List ResponseItemEnvelope)

theorem positionsFrom_append (more : List ResponseItemEnvelope) :
    positionsFrom ops first (items ++ more) =
      positionsFrom ops first items ++ positionsFrom ops (first + items.length) more := by
  simp [positionsFrom, zipIdx_append]

variable {item : ResponseItemEnvelope}

theorem positionsFrom_cons (boundary : isBoundary ops item = true) :
    positionsFrom ops first (item :: items) = first :: positionsFrom ops (first + 1) items := by
  simp [positionsFrom, boundary]

theorem length_positionsFrom :
    (positionsFrom ops first items).length = items.countP (isBoundary ops) := by
  induction items generalizing first with
  | nil => rfl
  | cons item items ih =>
    rw [← singleton_append, positionsFrom_append, length_append, ih, countP_append]
    cases boundary : isBoundary ops item <;> simp [positionsFrom, boundary]

variable {items}

theorem positionsFrom_lt {first position : Nat}
    (member : position ∈ positionsFrom ops first items) : position < first + items.length := by
  simp only [positionsFrom, List.mem_map, mem_filter] at member
  obtain ⟨entry, ⟨listed, _⟩, rfl⟩ := member
  exact snd_lt_add_of_mem_zipIdx listed

theorem positionsFrom_eq_nil
    (none : ∀ item ∈ items, isBoundary ops item = false) : positionsFrom ops first items = [] := by
  apply eq_nil_of_length_eq_zero
  rw [length_positionsFrom, countP_eq_zero]
  exact fun item member => eq_false_iff.mp (none item member)

theorem trim_first : trimPreTurnContextUpdates ops snapshot first first = first := by
  cases first with
  | zero => rfl
  | succ first => simp [trimPreTurnContextUpdates]

theorem trim_stops {cut : Nat} (held : snapshot[cut]? = some item)
    (other : isContextual ops item = false) :
    trimPreTurnContextUpdates ops snapshot first (cut + 1) = cut + 1 := by
  have plain : isPreTurnContextUpdate ops item.item = false := other
  simp [trimPreTurnContextUpdates, held, plain]

theorem trim_walks {cut : Nat} (held : snapshot[cut]? = some item)
    (contextual : isContextual ops item = true) (before : first < cut + 1) :
    trimPreTurnContextUpdates ops snapshot first (cut + 1) =
      trimPreTurnContextUpdates ops snapshot first cut := by
  have found : isPreTurnContextUpdate ops item.item = true := contextual
  simp [trimPreTurnContextUpdates, held, found, before]

theorem trim_contextual {kept contextual : List ResponseItemEnvelope}
    (rest : List ResponseItemEnvelope) {first count : Nat} (before : first < kept.length)
    (within : count ≤ contextual.length) (all : ∀ item ∈ contextual, isContextual ops item = true)
    (last : ∀ item, kept.getLast? = some item → isContextual ops item = false) :
    trimPreTurnContextUpdates ops (kept ++ contextual ++ rest) first (kept.length + count) =
      kept.length := by
  induction count with
  | zero =>
    obtain ⟨below, length⟩ : ∃ below, kept.length = below + 1 := ⟨kept.length - 1, by omega⟩
    have lastItem : kept[below]? = some (kept[below]) := getElem?_eq_getElem (by omega)
    rw [length]
    apply trim_stops ops _ _
    · rw [append_assoc, getElem?_append_left (by omega), lastItem]
    · apply last
      rw [getLast?_eq_getElem?, show kept.length - 1 = below by omega]
      exact lastItem
  | succ count ih =>
    have item : contextual[count]? = some (contextual[count]) := getElem?_eq_getElem (by omega)
    rw [← Nat.add_assoc, trim_walks ops _ _]
    · exact ih (by omega)
    · rw [append_assoc, getElem?_append_right (by omega), Nat.add_sub_cancel_left,
        getElem?_append_left (by omega), item]
    · exact all _ (getElem_mem _)
    · omega

theorem dropLastNUserTurns_none (none : ∀ item ∈ snapshot, isBoundary ops item = false) :
    dropLastNUserTurns ops numTurns snapshot = snapshot := by
  have positions : userMessagePositions ops snapshot = [] := positionsFrom_eq_nil ops 0 none
  unfold dropLastNUserTurns
  split
  · rfl
  · simp [positions]

variable {boundary : ResponseItemEnvelope}

theorem dropLastNUserTurns_behind {kept contextual rest : List ResponseItemEnvelope}
    (opens : isBoundary ops boundary = true) (earlier : ∃ item ∈ kept, isBoundary ops item = true)
    (count : (boundary :: rest).countP (isBoundary ops) = numTurns)
    (all : ∀ item ∈ contextual, isContextual ops item = true)
    (last : ∀ item, kept.getLast? = some item → isContextual ops item = false) :
    dropLastNUserTurns ops numTurns (kept ++ contextual ++ boundary :: rest) = kept := by
  have positions : userMessagePositions ops (kept ++ contextual ++ boundary :: rest) =
      positionsFrom ops 0 kept ++ (kept.length + contextual.length) ::
        positionsFrom ops (kept.length + contextual.length + 1) rest := by
    have silent : positionsFrom ops kept.length contextual = [] :=
      positionsFrom_eq_nil ops _ fun item member =>
        not_boundary_of_preTurnContextUpdate ops _ (all item member)
    calc
      _ = positionsFrom ops 0 (kept ++ contextual ++ boundary :: rest) := rfl
      _ = _ := by
          rw [positionsFrom_append, positionsFrom_append, Nat.zero_add, silent, append_nil,
            Nat.zero_add, length_append, positionsFrom_cons ops _ _ opens]
  obtain ⟨first, more, keptPositions⟩ : ∃ first more, positionsFrom ops 0 kept = first :: more := by
    apply exists_cons_of_length_pos
    rw [length_positionsFrom, countP_pos_iff]
    exact earlier
  have before : first < kept.length := by
    simpa using positionsFrom_lt ops
      (keptPositions ▸ mem_cons_self : first ∈ positionsFrom ops 0 kept)
  have tail : (positionsFrom ops (kept.length + contextual.length + 1) rest).length + 1 =
      numTurns := by
    rw [length_positionsFrom, ← count, countP_cons, opens, if_pos rfl]
  rw [keptPositions] at positions
  have cut : (userMessagePositions ops (kept ++ contextual ++ boundary :: rest)).getD
      ((userMessagePositions ops (kept ++ contextual ++ boundary :: rest)).length - numTurns) first =
        kept.length + contextual.length := by
    have index : ((first :: more) ++ (kept.length + contextual.length) ::
        positionsFrom ops (kept.length + contextual.length + 1) rest).length - numTurns =
          (first :: more).length := by
      simp only [length_append, length_cons]
      omega
    rw [positions, index, getD_append_right _ _ _ _ (Nat.le_refl _), Nat.sub_self]
    rfl
  have many : ¬ (userMessagePositions ops (kept ++ contextual ++ boundary :: rest)).length ≤
      numTurns := by
    rw [positions, length_append, length_cons, length_cons]
    omega
  have head : (userMessagePositions ops (kept ++ contextual ++ boundary :: rest)).head? =
    some first := by
    rw [positions]
    rfl
  have retained : (kept ++ contextual ++ boundary :: rest).take kept.length = kept := by
    rw [append_assoc, take_left]
  unfold dropLastNUserTurns
  rw [if_neg (by omega)]
  simp only [head, if_neg many, cut,
    trim_contextual ops (boundary :: rest) before (Nat.le_refl _) all last, retained]
  split
  · rw [if_neg (by omega)]
  · rfl

/-- At the first user turn of the history, nothing above the cut goes, but texts that belong to
the dropped turn are rebuilt. -/
theorem dropLastNUserTurns_first {kept rest : List ResponseItemEnvelope}
    (opens : isBoundary ops boundary = true)
    (none : ∀ item ∈ kept, isBoundary ops item = false)
    (count : (boundary :: rest).countP (isBoundary ops) ≤ numTurns)
    (own : ∀ turnId, boundary.turnId = some turnId →
      ∀ item ∈ kept, withoutRebuiltContent ops turnId item = some item) :
    dropLastNUserTurns ops numTurns (kept ++ boundary :: rest) = kept := by
  have positions : userMessagePositions ops (kept ++ boundary :: rest) =
      kept.length :: positionsFrom ops (kept.length + 1) rest := by
    calc
      _ = positionsFrom ops 0 (kept ++ boundary :: rest) := rfl
      _ = _ := by
          rw [positionsFrom_append, positionsFrom_eq_nil ops 0 none, nil_append,
            Nat.zero_add, positionsFrom_cons ops _ _ opens]
  have few : (userMessagePositions ops (kept ++ boundary :: rest)).length ≤ numTurns := by
    calc
      _ = (boundary :: rest).countP (isBoundary ops) := by
          rw [positions, length_cons, length_positionsFrom, countP_cons, opens, if_pos rfl]
      _ ≤ numTurns := count
  have head : (userMessagePositions ops (kept ++ boundary :: rest)).head? = some kept.length := by
    rw [positions]
    rfl
  have item : (kept ++ boundary :: rest)[kept.length]? = some boundary := by
    rw [getElem?_append_right (Nat.le_refl _), Nat.sub_self]
    rfl
  have positive : numTurns ≠ 0 := by
    rw [countP_cons, opens, if_pos rfl] at count
    omega
  unfold dropLastNUserTurns
  rw [if_neg positive]
  simp only [head, if_pos few, trim_first, take_left, item, if_true]
  split
  · rename_i turnId held
    rw [filterMap_congr (own turnId held), filterMap_some]
  · rfl

theorem filter_take_trim (cut : Nat) :
    (snapshot.take (trimPreTurnContextUpdates ops snapshot first cut)).filter (isBoundary ops) =
      (snapshot.take cut).filter (isBoundary ops) := by
  induction cut with
  | zero => rfl
  | succ cut ih =>
    rw [trimPreTurnContextUpdates]
    split
    · rename_i walks
      obtain ⟨item, held, contextual⟩ := (any_eq_true _ _).mp walks.2
      have plain : isBoundary ops item = false :=
        not_boundary_of_preTurnContextUpdate ops _ contextual
      rw [ih, take_add_one, held]
      simp [plain]
    · rfl

theorem filter_take_position {first position count : Nat}
    (found : (positionsFrom ops first items)[count]? = some position) :
    first ≤ position ∧ (items.take (position - first)).filter (isBoundary ops) =
        (items.filter (isBoundary ops)).take count := by
  induction items generalizing first count with
  | nil => cases found
  | cons item items ih =>
    cases boundary : isBoundary ops item with
    | true =>
      rw [positionsFrom_cons ops first items boundary] at found
      rw [filter_cons_of_pos boundary]
      cases count with
      | zero =>
        obtain rfl := some.inj found
        simp
      | succ count =>
        obtain ⟨bound, same⟩ := ih found
        have step : position - first = position - (first + 1) + 1 := by omega
        rw [step, take_succ_cons, filter_cons_of_pos boundary, same]
        exact ⟨by omega, rfl⟩
    | false =>
      have skipped : positionsFrom ops first (item :: items) =
          positionsFrom ops (first + 1) items := by
        simp [positionsFrom, boundary]
      rw [skipped] at found
      obtain ⟨bound, same⟩ := ih found
      have step : position - first = position - (first + 1) + 1 := by omega
      have plain : ¬ isBoundary ops item = true := eq_false_iff.mp boundary
      rw [step, take_succ_cons, filter_cons_of_neg plain, filter_cons_of_neg plain, same]
      exact ⟨by omega, rfl⟩

theorem filter_withoutRebuiltContent (turnId : TurnId) (items : List ResponseItemEnvelope) :
    (items.filterMap (withoutRebuiltContent ops turnId)).filter (isBoundary ops) =
      items.filter (isBoundary ops) := by
  induction items with
  | nil => rfl
  | cons item items ih =>
    have single : (withoutRebuiltContent ops turnId item).toList.filter (isBoundary ops) =
        [item].filter (isBoundary ops) := by
      rw [withoutRebuiltContent]
      split
      · rename_i content shape
        have plain : isBoundary ops item = false := by rw [isBoundary, shape]; rfl
        split
        · simp only
          split
          · rw [filter_cons_of_neg (eq_false_iff.mp plain)]
            rfl
          · rw [filter_cons_of_neg (eq_false_iff.mp plain)]
            rfl
        · rfl
      · rfl
    calc
      _ = (withoutRebuiltContent ops turnId item).toList.filter (isBoundary ops) ++
            (items.filterMap (withoutRebuiltContent ops turnId)).filter (isBoundary ops) := by
          rw [filterMap_cons]
          cases withoutRebuiltContent ops turnId item with
          | none => rfl
          | some kept => rw [toList_some, ← filter_append]; rfl
      _ = [item].filter (isBoundary ops) ++ items.filter (isBoundary ops) := by rw [single, ih]
      _ = _ := by rw [← filter_append]; rfl

def cutPosition (positions : List Nat) : Nat :=
  if positions.length ≤ numTurns then first else positions.getD (positions.length - numTurns) first

def rolledBack (cut : Nat) : List ResponseItemEnvelope :=
  match snapshot[first]?.bind ResponseItemEnvelope.turnId with
  | some firstTurnId =>
    if cut = first then (snapshot.take cut).filterMap (withoutRebuiltContent ops firstTurnId)
    else snapshot.take cut
  | none => snapshot.take cut

theorem drop_eq_rolledBack {numTurns first : Nat} {snapshot : List ResponseItemEnvelope}
    {more : List Nat} (positive : numTurns ≠ 0)
    (positions : userMessagePositions ops snapshot = first :: more) :
    dropLastNUserTurns ops numTurns snapshot =
      rolledBack ops snapshot first (trimPreTurnContextUpdates ops snapshot first
        (cutPosition numTurns first (first :: more))) := by
  unfold dropLastNUserTurns
  rw [if_neg positive]
  simp only [positions]
  rfl

theorem drop_of_no_positions {numTurns : Nat} {snapshot : List ResponseItemEnvelope}
    (none : userMessagePositions ops snapshot = []) :
    dropLastNUserTurns ops numTurns snapshot = snapshot := by
  unfold dropLastNUserTurns
  split
  · rfl
  · simp [none]

theorem filter_rolledBack (cut : Nat) :
    (rolledBack ops snapshot first cut).filter (isBoundary ops) =
      (snapshot.take cut).filter (isBoundary ops) := by
  rw [rolledBack]
  split
  · split
    · exact filter_withoutRebuiltContent ops _ _
    · rfl
  · rfl

theorem filter_dropLastNUserTurns :
    (dropLastNUserTurns ops numTurns snapshot).filter (isBoundary ops) =
      (snapshot.filter (isBoundary ops)).take
        ((snapshot.filter (isBoundary ops)).length - numTurns) := by
  have count : (snapshot.filter (isBoundary ops)).length =
      (userMessagePositions ops snapshot).length := by
    rw [← countP_eq_length_filter, ← length_positionsFrom ops 0]
    rfl
  by_cases zero : numTurns = 0
  · rw [zero, Nat.sub_zero, take_length, dropLastNUserTurns, if_pos rfl]
  cases positions : userMessagePositions ops snapshot with
  | nil =>
    rw [positions] at count
    rw [drop_of_no_positions ops positions, eq_nil_of_length_eq_zero count, take_nil]
  | cons first more =>
    have before (position index : Nat) (found : (first :: more)[index]? = some position) :
        (snapshot.take position).filter (isBoundary ops) =
          (snapshot.filter (isBoundary ops)).take index := by
      rw [← positions] at found
      have inside : 0 ≤ position ∧ _ := filter_take_position ops found
      exact inside.2
    rw [drop_eq_rolledBack ops zero positions, filter_rolledBack, filter_take_trim, cutPosition,
      count,
      positions]
    split
    · rename_i few
      rw [Nat.sub_eq_zero_of_le few]
      exact before first 0 rfl
    · apply before
      rw [getD_eq_getElem _ _ (by omega)]
      exact getElem?_eq_getElem _

variable {numTurns snapshot first}

theorem trim_le (cut : Nat) : trimPreTurnContextUpdates ops snapshot first cut ≤ cut := by
  induction cut with
  | zero => exact Nat.le_refl 0
  | succ cut ih =>
    rw [trimPreTurnContextUpdates]
    split
    · exact Nat.le_succ_of_le ih
    · exact Nat.le_refl _

theorem trim_take {bound cut : Nat} (within : cut ≤ bound) :
    trimPreTurnContextUpdates ops (snapshot.take bound) first cut =
      trimPreTurnContextUpdates ops snapshot first cut := by
  induction cut with
  | zero => rfl
  | succ cut ih =>
    rw [trimPreTurnContextUpdates, trimPreTurnContextUpdates, getElem?_take_of_lt within,
      ih (by omega)]

theorem rolledBack_take {bound cut : Nat} (within : cut ≤ bound) (inside : first < bound) :
    rolledBack ops (snapshot.take bound) first cut = rolledBack ops snapshot first cut := by
  rw [rolledBack, rolledBack, getElem?_take_of_lt inside, take_take, Nat.min_eq_left within]

theorem positions_take {count position : Nat}
    (found : (userMessagePositions ops snapshot)[count]? = some position) :
    userMessagePositions ops (snapshot.take (trimPreTurnContextUpdates ops snapshot first position)) =
      (userMessagePositions ops snapshot).take count := by
  obtain ⟨inside, -⟩ := List.getElem?_eq_some_iff.mp found
  have before : 0 ≤ position ∧ _ := filter_take_position ops found
  have size : (userMessagePositions ops
      (snapshot.take (trimPreTurnContextUpdates ops snapshot first position))).length = count := by
    calc
      _ = ((snapshot.take (trimPreTurnContextUpdates ops snapshot first position)).filter
            (isBoundary ops)).length := by
          rw [← countP_eq_length_filter]
          exact length_positionsFrom ops 0 _
      _ = ((snapshot.filter (isBoundary ops)).take count).length := by
          rw [filter_take_trim, ← before.2, Nat.sub_zero]
      _ = count := by
          rw [length_take, ← countP_eq_length_filter, ← length_positionsFrom ops 0]
          exact Nat.min_eq_left (Nat.le_of_lt inside)
  have whole := positionsFrom_append ops 0
    (snapshot.take (trimPreTurnContextUpdates ops snapshot first position))
    (snapshot.drop (trimPreTurnContextUpdates ops snapshot first position))
  rw [take_append_drop] at whole
  rw [show userMessagePositions ops snapshot = _ from whole]
  exact (take_left' size).symm

theorem cutPosition_mem {more : List Nat} (positive : numTurns ≠ 0) :
    cutPosition numTurns first (first :: more) ∈ first :: more := by
  rw [cutPosition]
  split
  · exact mem_cons_self
  · rw [getD_eq_getElem _ _ (by simp only [length_cons] at *; omega)]
    exact getElem_mem _

theorem cutPosition_take {earlier : Nat} (positions : List Nat) (positive : numTurns ≠ 0)
    (left : earlier < positions.length) :
    cutPosition numTurns first (positions.take (positions.length - earlier)) =
      cutPosition (earlier + numTurns) first positions := by
  rw [cutPosition, cutPosition, length_take, Nat.min_eq_left (by omega)]
  by_cases few : positions.length ≤ earlier + numTurns
  · rw [if_pos few, if_pos (by omega)]
  · rw [if_neg few, if_neg (by omega), getD_eq_getElem?_getD, getD_eq_getElem?_getD,
      getElem?_take_of_lt (by omega), Nat.sub_sub]

theorem drop_every {count : Nat} (every : (userMessagePositions ops snapshot).length ≤ numTurns)
    (more : numTurns ≤ count) :
    dropLastNUserTurns ops count snapshot = dropLastNUserTurns ops numTurns snapshot := by
  cases positions : userMessagePositions ops snapshot with
  | nil => rw [drop_of_no_positions ops positions, drop_of_no_positions ops positions]
  | cons first rest =>
    rw [positions, length_cons] at every
    rw [drop_eq_rolledBack ops (by omega) positions, drop_eq_rolledBack ops (by omega) positions,
      cutPosition, cutPosition, length_cons, if_pos (by omega), if_pos (by omega)]

theorem drop_drop (earlier : Nat) :
    dropLastNUserTurns ops numTurns (dropLastNUserTurns ops earlier snapshot) =
      dropLastNUserTurns ops (earlier + numTurns) snapshot := by
  by_cases zero : numTurns = 0
  · rw [zero, dropLastNUserTurns, if_pos rfl, Nat.add_zero]
  by_cases none : earlier = 0
  · rw [none, dropLastNUserTurns.eq_def ops 0, if_pos rfl, Nat.zero_add]
  cases positions : userMessagePositions ops snapshot with
  | nil =>
    rw [drop_of_no_positions ops positions, drop_of_no_positions ops positions,
      drop_of_no_positions ops positions]
  | cons first more =>
    by_cases few : (first :: more).length ≤ earlier
    · have silent : ∀ item ∈ dropLastNUserTurns ops earlier snapshot,
          isBoundary ops item = false := by
        have left := filter_dropLastNUserTurns ops earlier snapshot
        rw [← countP_eq_length_filter, ← length_positionsFrom ops 0,
          show positionsFrom ops 0 snapshot = first :: more from positions,
          Nat.sub_eq_zero_of_le few] at left
        exact fun item member => eq_false_iff.mpr (filter_eq_nil_iff.mp left item member)
      rw [dropLastNUserTurns_none ops _ _ silent]
      exact (drop_every ops (positions ▸ few) (Nat.le_add_right _ _)).symm
    · obtain ⟨position, found⟩ : ∃ position,
          (first :: more)[(first :: more).length - earlier]? = some position :=
        ⟨_, getElem?_eq_getElem (by omega)⟩
      have cut : cutPosition earlier first (first :: more) = position := by
        rw [cutPosition, if_neg few, getD_eq_getElem?_getD, found]
        rfl
      have taken : userMessagePositions ops
          (snapshot.take (trimPreTurnContextUpdates ops snapshot first position)) = _ :=
        positions_take ops (positions ▸ found)
      rw [positions] at taken
      have start : (first :: more).take ((first :: more).length - earlier) =
          first :: more.take ((first :: more).length - earlier - 1) := take_cons (by omega)
      have inside (place : Nat)
        (member : place ∈ (first :: more).take ((first :: more).length - earlier)) :
          place < trimPreTurnContextUpdates ops snapshot first position := by
        rw [← taken] at member
        have below := positionsFrom_lt ops member
        rw [length_take] at below
        omega
      have once : dropLastNUserTurns ops earlier snapshot =
          snapshot.take (trimPreTurnContextUpdates ops snapshot first position) := by
        have past := inside first (start ▸ mem_cons_self)
        rw [drop_eq_rolledBack ops none positions, cut, rolledBack]
        split
        · rw [if_neg (by omega)]
        · rfl
      have again : cutPosition numTurns first
        ((first :: more).take ((first :: more).length - earlier)) ∈
          (first :: more).take ((first :: more).length - earlier) := by
        rw [start]
        exact cutPosition_mem zero
      have within := inside _ again
      rw [start] at taken
      rw [once, drop_eq_rolledBack ops zero taken, drop_eq_rolledBack ops (by omega) positions,
        ← start]
      rw [cutPosition_take _ zero (by omega)] at within ⊢
      have bounded := Nat.le_of_lt within
      rw [trim_take ops bounded, rolledBack_take ops (Nat.le_trans (trim_le ops _) bounded)
        (inside first (start ▸ mem_cons_self))]

/-- Two rollbacks in turn leave what one rollback by their sum leaves, also when the sum saturates
at a bound that no history exceeds. -/
theorem rollbacks_compose (snapshot : List ResponseItemEnvelope) (first second bound : Nat) :
    dropLastNUserTurns ops second (dropLastNUserTurns ops first snapshot) =
        dropLastNUserTurns ops (first + second) snapshot ∧
      ((userMessagePositions ops snapshot).length ≤ bound →
        dropLastNUserTurns ops second (dropLastNUserTurns ops first snapshot) =
          dropLastNUserTurns ops (min (first + second) bound) snapshot) := by
  refine ⟨drop_drop ops first, fun few => ?_⟩
  rw [drop_drop]
  rcases Nat.le_total (first + second) bound with less | more
  · rw [Nat.min_eq_left less]
  · rw [Nat.min_eq_right more, drop_every ops few more]

end OpenInterpreter.ContextHistory
