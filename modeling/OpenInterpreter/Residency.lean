import Mathlib.Data.List.Nodup
import OpenInterpreter.Interleaving

/-! The sub-agent threads that stay loaded: `core/src/agent/control/residency.rs`. A call steps from
one lock of the state to the next. -/

namespace OpenInterpreter.Residency

open Interleaving List

variable {ThreadId : Type} [DecidableEq ThreadId]

structure V2ResidencyState (ThreadId : Type) where
  residents : List ThreadId := []
  pendingSlots : Nat := 0
  loaded : List ThreadId := []
  deriving DecidableEq

inductive Call (ThreadId : Type) where
  | reserveSlot (protectedThreadId : Option ThreadId)
  | touch (threadId : ThreadId)
  | remove (threadId : ThreadId)

/-- `candidates` is the number of candidates that `try_unload_one_resident` has still to scan. -/
inductive Stage (ThreadId : Type) where
  | reserving (protectedThreadId : Option ThreadId)
  | counting (protectedThreadId : Option ThreadId)
  | scanning (protectedThreadId : Option ThreadId) (candidates : Nat)
  | unloading (protectedThreadId : Option ThreadId) (candidates : Nat) (threadId : ThreadId)
  | slot
  | touching (threadId : ThreadId)
  | removing (threadId : ThreadId)
  | returned
  deriving DecidableEq

/-- What becomes of a candidate and of a slot: a candidate is not found, cannot be unloaded or
is. -/
inductive Input (ThreadId : Type) where
  | go
  | missing
  | kept
  | unloaded
  | commit (threadId : ThreadId)
  | drop

def start : Call ThreadId → Stage ThreadId
  | .reserveSlot protectedThreadId => .reserving protectedThreadId
  | .touch threadId => .touching threadId
  | .remove threadId => .removing threadId

def touchResident (residents : List ThreadId) (threadId : ThreadId) : List ThreadId :=
  residents.filter (· != threadId) ++ [threadId]

/-- The residents it leaves, and the candidate. -/
def popLruCandidate (protectedThreadId : Option ThreadId) :
    Nat → List ThreadId → List ThreadId × Option ThreadId
  | candidates + 1, candidate :: rest =>
    if some candidate = protectedThreadId then
      popLruCandidate protectedThreadId candidates (rest ++ [candidate])
    else (rest, some candidate)
  | _, residents => (residents, none)

variable (capacity : Nat)

def step (state : V2ResidencyState ThreadId) :
    Stage ThreadId → Input ThreadId → Option (V2ResidencyState ThreadId × Stage ThreadId)
  | .reserving protectedThreadId, .go =>
    if capacity ≤ state.residents.length + state.pendingSlots then
      some (state, .counting protectedThreadId)
    else some ({ state with pendingSlots := state.pendingSlots + 1 }, .slot)
  | .counting protectedThreadId, .go =>
    some (state, .scanning protectedThreadId state.residents.length)
  | .scanning _ 0, .go => some (state, .returned)
  | .scanning protectedThreadId (candidates + 1), .go =>
    let popped := popLruCandidate protectedThreadId state.residents.length state.residents
    some ({ state with residents := popped.1 },
      popped.2.elim .returned (.unloading protectedThreadId candidates))
  | .unloading protectedThreadId candidates _, .missing =>
    some (state, .scanning protectedThreadId candidates)
  | .unloading protectedThreadId candidates threadId, .kept =>
    some ({ state with residents := touchResident state.residents threadId },
      .scanning protectedThreadId candidates)
  | .unloading protectedThreadId _ threadId, .unloaded =>
    some ({ state with loaded := state.loaded.filter (· != threadId) }, .reserving protectedThreadId)
  | .slot, .commit threadId =>
    some ({
      residents := touchResident state.residents threadId
      pendingSlots := state.pendingSlots - 1
      loaded := threadId :: state.loaded }, .returned)
  | .slot, .drop => some ({ state with pendingSlots := state.pendingSlots - 1 }, .returned)
  | .touching threadId, .go =>
    if threadId ∈ state.loaded then
      some ({ state with residents := touchResident state.residents threadId }, .returned)
    else none
  | .removing threadId, .go =>
    some ({ state with residents := state.residents.filter (· != threadId) }, .returned)
  | _, _ => none

structure Bounded (state : V2ResidencyState ThreadId) : Prop where
  limit : state.residents.length + state.pendingSlots ≤ capacity
  distinct : state.residents.Nodup

abbrev V2Residency (ThreadId : Type) :=
  World (V2ResidencyState ThreadId) (Stage ThreadId) (Input ThreadId)

/-- A thread that is put back or touched is listed, or there is room for it. -/
def Room (state : V2ResidencyState ThreadId) : Stage ThreadId → Input ThreadId → Prop
  | .unloading _ _ threadId, .kept | .touching threadId, .go =>
    threadId ∈ state.residents ∨ state.residents.length + state.pendingSlots < capacity
  | _, _ => True

def SafeMove (world : V2Residency ThreadId) : Move (Call ThreadId) (Input ThreadId) → Prop
  | .enter _ => True
  | .act index input => ∀ stage, world.locals[index]? = some stage →
    Room capacity world.shared stage input

theorem popLruCandidate_perm (protectedThreadId : Option ThreadId) (candidates : Nat)
    (residents : List ThreadId) :
    let popped := popLruCandidate protectedThreadId candidates residents
    popped.2.toList ++ popped.1 ~ residents := by
  induction candidates generalizing residents with
  | zero => rfl
  | succ candidates ih =>
    cases residents with
    | nil => rfl
    | cons candidate rest =>
      rw [popLruCandidate]
      split
      · exact (ih _).trans (perm_append_singleton candidate rest)
      · rfl

variable {residents : List ThreadId} {threadId : ThreadId} {capacity : Nat}

theorem nodup_touchResident (distinct : residents.Nodup) :
    (touchResident residents threadId).Nodup := by
  refine (distinct.filter _).append (nodup_singleton _) ?_
  simp

theorem length_touchResident (distinct : residents.Nodup) :
    (touchResident residents threadId).length =
      if threadId ∈ residents then residents.length else residents.length + 1 := by
  rw [touchResident, ← distinct.erase_eq_filter, length_append, length_erase]
  split
  · rename_i present
    exact Nat.sub_add_cancel (length_pos_of_mem present)
  · rfl

def Stage.slots : Stage ThreadId → Nat
  | .slot => 1
  | _ => 0

section

variable {state after : V2ResidencyState ThreadId} {stage target : Stage ThreadId}
  {input : Input ThreadId}

-- The cases below are numbered as in `step`.
theorem slots_step (slots : stage.slots ≤ state.pendingSlots)
    (stepped : step capacity state stage input = some (after, target)) :
    after.pendingSlots + stage.slots = state.pendingSlots + target.slots := by
  rw [step.eq_def] at stepped
  split at stepped
  case h_1 | h_10 => split at stepped <;> cases stepped <;> rfl
  case h_4 =>
    cases stepped
    cases (popLruCandidate _ state.residents.length state.residents).2 <;> rfl
  case h_8 | h_9 =>
    cases stepped
    exact Nat.sub_add_cancel slots
  all_goals cases stepped <;> rfl

theorem bounded_touch_iff (bounded : Bounded capacity state) :
    Bounded capacity { state with residents := touchResident state.residents threadId } ↔
      threadId ∈ state.residents ∨ state.residents.length + state.pendingSlots < capacity := by
  have limit := bounded.limit
  have length := @length_touchResident _ _ _ threadId bounded.distinct
  refine ⟨fun touched => ?_, fun room => ⟨?_, nodup_touchResident bounded.distinct⟩⟩
  · have := touched.limit
    dsimp only at this
    split at length
    · exact .inl ‹_›
    · exact .inr (by omega)
  · dsimp only
    split at length
    · omega
    · have := room.resolve_left ‹_›
      omega

theorem bounded_step_iff (bounded : Bounded capacity state)
    (slots : stage.slots ≤ state.pendingSlots)
    (stepped : step capacity state stage input = some (after, target)) :
    Bounded capacity after ↔ Room capacity state stage input := by
  have limit := bounded.limit
  have touched (threadId) := @length_touchResident _ _ _ threadId bounded.distinct
  rw [step.eq_def] at stepped
  split at stepped
  case h_1 =>
    refine iff_of_true ?_ trivial
    split at stepped <;> cases stepped
    · exact bounded
    · exact ⟨by dsimp only; omega, bounded.distinct⟩
  case h_4 =>
    cases stepped
    have popped := popLruCandidate_perm ‹_› state.residents.length state.residents
    have distinct := popped.nodup_iff.mpr bounded.distinct
    have length := popped.length_eq
    rw [length_append] at length
    exact iff_of_true ⟨by dsimp only; omega, (nodup_append.mp distinct).2.1⟩ trivial
  case h_6 =>
    cases stepped
    exact bounded_touch_iff bounded
  case h_8 =>
    cases stepped
    refine iff_of_true ⟨?_, nodup_touchResident bounded.distinct⟩ trivial
    have := touched ‹_›
    rw [Stage.slots] at slots
    dsimp only
    split at this <;> omega
  case h_10 =>
    split at stepped <;> cases stepped
    exact bounded_touch_iff bounded
  case h_9 =>
    cases stepped
    exact iff_of_true ⟨by dsimp only; omega, bounded.distinct⟩ trivial
  case h_11 =>
    cases stepped
    rename_i threadId
    have shorter := length_filter_le (· != threadId) state.residents
    exact iff_of_true ⟨by dsimp only; omega, bounded.distinct.filter _⟩ trivial
  all_goals cases stepped <;> exact iff_of_true ⟨limit, bounded.distinct⟩ trivial

end

def Counted (world : V2Residency ThreadId) : Prop :=
  (world.locals.map Stage.slots).sum = world.shared.pendingSlots

variable {world : V2Residency ThreadId}

omit [DecidableEq ThreadId] in
theorem Counted.slots_le (counted : Counted world) {index : Nat} {stage : Stage ThreadId}
    (present : world.locals[index]? = some stage) : stage.slots ≤ world.shared.pendingSlots := by
  have replaced := sum_set Stage.slots .returned present
  rw [counted] at replaced
  exact Nat.le.intro (Nat.add_comm .. |>.trans replaced)

theorem counted_of_run {moves : List (Move (Call ThreadId) (Input ThreadId))}
    (ran : run (step capacity) start { shared := {} } moves = some world) : Counted world := by
  refine run_keeps (step capacity) start ?_ ran rfl
  intro world next_move next counted moved
  rcases move_cases (step capacity) start moved with ⟨request, rfl⟩ | ⟨index, stage, input, after,
    target, present, stepped, rfl⟩
  · rw [Counted, map_append, sum_append, counted]
    cases request <;> rfl
  · have replaced := sum_set Stage.slots target present
    have kept := slots_step (counted.slots_le present) stepped
    rw [counted] at replaced
    rw [Counted]
    dsimp only
    omega

/-- The limit holds all along a run exactly when a thread that is put back or touched is always
listed or finds room. -/
theorem residency_limit_iff (capacity : Nat) (moves : List (Move (Call ThreadId) (Input ThreadId)))
    (last : V2Residency ThreadId)
    (ran : run (step capacity) start { shared := {} } moves = some last) :
    Always (step capacity) start { shared := {} } (fun world => Bounded capacity world.shared)
        moves ↔
      EachMove (step capacity) start { shared := {} } (SafeMove capacity) moves := by
  refine always_iff_eachMove ?_ ⟨Nat.zero_le _, nodup_nil⟩ ran
  intro moves world next_move next reached bounded moved
  cases next_move with
  | enter request =>
    cases moved
    exact iff_of_true bounded trivial
  | act index input =>
    obtain ⟨source, after, target, present, stepped, rfl⟩ := act_cases (step capacity) start moved
    refine (bounded_step_iff bounded ((counted_of_run reached).slots_le present) stepped).trans ?_
    simp [SafeMove, present]

def committed : List (Move (Call Nat) (Input Nat)) :=
  [.enter (.reserveSlot none), .act 0 .go, .act 0 (.commit 7)]

/-- With two slots, a third reservation pops the oldest thread while the other one is touched; the
popped thread turns out to be busy, is put back and is touched in turn. -/
def putBackWithRoom : List (Move (Call Nat) (Input Nat)) :=
  committed ++ [.enter (.reserveSlot none), .act 1 .go, .act 1 (.commit 8),
    .enter (.reserveSlot none), .act 2 .go, .act 2 .go, .act 2 .go,
    .enter (.touch 8), .act 3 .go, .act 2 .kept, .enter (.touch 7), .act 4 .go]

theorem put_back_with_room_bounded :
    ∃ world, run (step 2) start { shared := {} } putBackWithRoom = some world ∧
      world.shared.residents = [8, 7] ∧
      Always (step 2) start { shared := {} } (fun world => Bounded 2 world.shared)
        putBackWithRoom := by
  refine ⟨_, rfl, rfl, (residency_limit_iff 2 putBackWithRoom _ rfl).mpr ?_⟩
  -- both touches find their thread listed, and the popped thread finds the place it left
  iterate 15
    refine eachMove_cons.mpr ⟨?_, ?_⟩
    · first
      | trivial
      | rintro stage ⟨⟩; first | trivial | exact .inl (by decide) | exact .inr (by decide)
    rintro _ ⟨⟩
  exact eachMove_nil

/-- The thread is popped by a second call, a third one takes the slot, and the thread turns out to
be busy. -/
def putBack : List (Move (Call Nat) (Input Nat)) :=
  committed ++ [.enter (.reserveSlot none), .act 1 .go, .act 1 .go, .act 1 .go,
    .enter (.reserveSlot none), .act 2 .go, .act 1 .kept]

theorem put_back_exceeds :
    ∃ world, run (step 1) start { shared := {} } putBack = some world ∧
      world.shared.residents = [7] ∧ world.shared.pendingSlots = 1 :=
  ⟨_, rfl, rfl, rfl⟩

end OpenInterpreter.Residency
