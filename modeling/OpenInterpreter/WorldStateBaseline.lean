import OpenInterpreter.MergePatch
import OpenInterpreter.RolloutReplay

/-! World-state snapshots of `core/src/context/world_state/mod.rs`, and the baseline that
`update_world_state` of `core/src/context_manager/history.rs` keeps of them in memory and in the
rollout. -/

namespace OpenInterpreter.WorldStateBaseline

open KeyedList Json MergePatch Rollout RolloutReplay List Option

variable {Number : Type}

structure JsonObject (Number : Type) where
  fields : Fields Number
  distinct : (Value.object fields).distinct = true

structure WorldStateSnapshot (Number : Type) where
  sections : JsonObject Number

structure WorldStateItem (Number : Type) where
  full : Bool
  state : JsonObject Number

namespace WorldStateSnapshot

def intoObject (snapshot : WorldStateSnapshot Number) : JsonObject Number := snapshot.sections

def ofObject (state : JsonObject Number) : WorldStateSnapshot Number := ⟨state⟩

def nullFree (snapshot : WorldStateSnapshot Number) : Bool :=
  (Value.object snapshot.sections.fields).nullFree

end WorldStateSnapshot

def sectionSnapshot (serialized : Value Number) : Option (Value Number) :=
  let snapshot := removeNullObjectFields serialized
  if snapshot.isNull then none else some snapshot

/-- `WorldState`: the section ids, each with the value that its section serializes to when it is
persisted. -/
structure WorldState (Number : Type) where
  sections : List (String × Option (Value Number))
  ids : (keys sections).Nodup
  distinct : ∀ id value, (id, some value) ∈ sections → value.distinct = true

def sectionSnapshots (sections : List (String × Option (Value Number))) : Fields Number :=
  sections.filterMap fun entry =>
    (entry.2.bind sectionSnapshot).map fun snapshot => (entry.1, snapshot)

theorem keys_sectionSnapshots (sections : List (String × Option (Value Number))) :
    (keys (sectionSnapshots sections)).Sublist (keys sections) := by
  induction sections with
  | nil => exact .slnil
  | cons entry sections ih =>
    rw [sectionSnapshots, filterMap_cons]
    split
    · exact ih.cons _
    · rename_i kept taken
      obtain ⟨snapshot, _, rfl⟩ := map_eq_some_iff.mp taken
      exact ih.cons_cons _

theorem mem_sectionSnapshots {id : String} {snapshot : Value Number}
    {sections : List (String × Option (Value Number))}
    (member : (id, snapshot) ∈ sectionSnapshots sections) :
    ∃ value, (id, some value) ∈ sections ∧ snapshot = removeNullObjectFields value ∧
      snapshot.isNull = false := by
  obtain ⟨⟨first, serialized⟩, listed, taken⟩ := mem_filterMap.mp member
  obtain ⟨found, kept, same⟩ := map_eq_some_iff.mp taken
  obtain ⟨value, rfl, some⟩ := bind_eq_some_iff.mp kept
  cases same
  rw [sectionSnapshot] at some
  split at some
  · cases some
  · rename_i present
    cases some
    exact ⟨value, listed, rfl, Bool.not_eq_true _ ▸ present⟩

def WorldState.snapshot (world : WorldState Number) : WorldStateSnapshot Number where
  sections :=
    { fields := sectionSnapshots world.sections
      distinct := by
        rw [distinct_object]
        refine ⟨(keys_sectionSnapshots world.sections).nodup world.ids, ?_⟩
        intro id snapshot found
        obtain ⟨value, listed, rfl, _⟩ := mem_sectionSnapshots (mem_of_get found)
        exact distinct_removeNullObjectFields (world.distinct id value listed) }

theorem nullFree_snapshot (world : WorldState Number) : world.snapshot.nullFree = true := by
  rw [WorldStateSnapshot.nullFree, nullFree_object]
  intro id snapshot member
  obtain ⟨value, _, rfl, present⟩ := mem_sectionSnapshots member
  exact ⟨present, nullFree_removeNullObjectFields value⟩

variable [DecidableEq Number]

namespace WorldStateSnapshot

def eq (left right : WorldStateSnapshot Number) : Bool :=
  (Value.object left.sections.fields).eq (.object right.sections.fields)

theorem distinct_patch (snapshot previous : WorldStateSnapshot Number) :
    (Value.object (fieldsPatch (some previous.sections.fields) snapshot.sections.fields)).distinct =
      true := by
  have distinct := (distinct_object _).mp snapshot.sections.distinct
  apply distinct_patched snapshot.sections.distinct
  intro key value old patch held created
  exact distinct_createMergePatch (distinct.2 key value held) created

def mergePatchFrom (snapshot previous : WorldStateSnapshot Number) : Option (JsonObject Number) :=
  let patch := fieldsPatch (some previous.sections.fields) snapshot.sections.fields
  if patch.isEmpty then none else some ⟨patch, snapshot.distinct_patch previous⟩

def applyMergePatch (snapshot : WorldStateSnapshot Number) (patch : JsonObject Number) :
    WorldStateSnapshot Number where
  sections :=
    { fields := applyPatchFields snapshot.sections.fields patch.fields
      distinct := by
        have applied := distinct_applyMergePatchValue snapshot.sections.distinct patch.distinct
        rw [applyMergePatchValue] at applied
        exact applied }

theorem eq_iff (left right : WorldStateSnapshot Number) :
    left.eq right = true ↔ SameFields left.sections.fields right.sections.fields :=
  same_object ((distinct_object _).mp left.sections.distinct).1
    ((distinct_object _).mp right.sections.distinct).1

theorem mergePatchFrom_none (snapshot previous : WorldStateSnapshot Number) :
    snapshot.mergePatchFrom previous = none ↔ previous.eq snapshot = true := by
  have nodup := ((distinct_object _).mp snapshot.sections.distinct).1
  have empty : snapshot.mergePatchFrom previous = none ↔ ∀ key,
      get key (fieldsPatch (some previous.sections.fields) snapshot.sections.fields) = none := by
    rw [← eq_nil_iff, mergePatchFrom]
    simp
  rw [empty, eq_iff]
  apply forall_congr'
  intro key
  rw [get_fieldsPatch _ nodup]
  cases wanted : get key snapshot.sections.fields with
  | none =>
    cases old : get key previous.sections.fields with
    | none | some => simp [old, SameAt]
  | some value =>
    simp only [change, bind_some]
    cases old : get key previous.sections.fields with
    | none => simp [SameAt]
    | some before => simp [SameAt, createMergePatch_none]

theorem eq_applyMergePatch {target previous snapshot : WorldStateSnapshot Number}
    {patch : JsonObject Number} (free : snapshot.nullFree = true)
    (same : target.eq previous = true) (created : snapshot.mergePatchFrom previous = some patch) :
    (target.applyMergePatch patch).eq snapshot = true := by
  rw [mergePatchFrom] at created
  split at created
  · cases created
  · cases created
    rw [eq_iff] at same ⊢
    have distinct := (distinct_object _).mp snapshot.sections.distinct
    have distinctOld := (distinct_object _).mp previous.sections.distinct
    have distinctTarget := (distinct_object _).mp target.sections.distinct
    apply sameFields_patched (some previous.sections.fields) target.sections.distinct
      previous.sections.distinct snapshot.sections.distinct free same
    intro key value old held patch wanted before found heldSame inner
    have inside := ((nullFree_object _).mp free key value (mem_of_get wanted)).2
    exact same_patched (distinctTarget.2 key held found) (distinctOld.2 key old before)
      (distinct.2 key value wanted) inside heldSame inner

theorem eq_trans {left middle right : WorldStateSnapshot Number} (first : left.eq middle = true)
    (second : middle.eq right = true) : left.eq right = true :=
  Value.same_trans left.sections.distinct middle.sections.distinct right.sections.distinct first
    second

theorem eq_refl (snapshot : WorldStateSnapshot Number) : snapshot.eq snapshot = true :=
  Value.same_refl snapshot.sections.distinct

end WorldStateSnapshot

open WorldStateSnapshot

def updateWorldState (worldStateBaseline : Option (WorldStateSnapshot Number))
    (worldState : WorldState Number) :
    WorldStateSnapshot Number × Option (WorldStateItem Number) :=
  let snapshot := worldState.snapshot
  (snapshot,
    match worldStateBaseline with
    | none => some ⟨true, snapshot.intoObject⟩
    | some previous => (snapshot.mergePatchFrom previous).map fun patch => ⟨false, patch⟩)

def WorldStateItem.persisted (item : WorldStateItem Number) : RolloutItem (JsonObject Number) :=
  .worldState item.full item.state

def updateAll : Option (WorldStateSnapshot Number) → List (WorldState Number) →
    Option (WorldStateSnapshot Number) × List (RolloutItem (JsonObject Number))
  | baseline, [] => (baseline, [])
  | baseline, world :: worlds =>
    let updated := updateWorldState baseline world
    let rest := updateAll (some updated.1) worlds
    (rest.1, updated.2.toList.map WorldStateItem.persisted ++ rest.2)

def worldStateOps {State Snapshot : Type} (ops : ReplayOps State Snapshot) :
    ReplayOps (JsonObject Number) (WorldStateSnapshot Number) where
  isContextualUserMessageContent := ops.isContextualUserMessageContent
  isContextualDevMessageContent := ops.isContextualDevMessageContent
  isMessageContent := ops.isMessageContent
  rebuiltAfterRollback := ops.rebuiltAfterRollback
  truncateOutput := ops.truncateOutput
  parseUuidV7 := ops.parseUuidV7
  buildCompactedHistory := ops.buildCompactedHistory
  snapshotFrom := .ofObject
  applyMergePatch := WorldStateSnapshot.applyMergePatch

theorem isSome_updateAll (baseline : WorldStateSnapshot Number)
    (worlds : List (WorldState Number)) : (updateAll (some baseline) worlds).1.isSome = true := by
  induction worlds generalizing baseline with
  | nil => rfl
  | cons world worlds ih => exact ih _

section

variable {State Snapshot : Type} (ops : ReplayOps State Snapshot)

def InStep (replayed live : Option (WorldStateSnapshot Number)) : Prop :=
  Option.Rel (fun replayed live => replayed.eq live = true) replayed live

theorem updateWorldState_inStep {replayed live : Option (WorldStateSnapshot Number)}
    (inStep : InStep replayed live) (world : WorldState Number) :
    InStep (((updateWorldState live world).2.toList.map WorldStateItem.persisted).foldl
      (replayWorldState (worldStateOps ops)) replayed) (some (updateWorldState live world).1) := by
  cases inStep with
  | none => exact .some (eq_refl _)
  | some same =>
    rename_i replayed live
    simp only [updateWorldState]
    cases created : world.snapshot.mergePatchFrom live with
    | none =>
      rw [mergePatchFrom_none] at created
      exact .some (eq_trans same created)
    | some patch =>
      exact .some (eq_applyMergePatch (nullFree_snapshot world) same created)

theorem updateAll_inStep (worlds : List (WorldState Number))
    {replayed live : Option (WorldStateSnapshot Number)} (inStep : InStep replayed live) :
    InStep ((updateAll live worlds).2.foldl (replayWorldState (worldStateOps ops)) replayed)
      (updateAll live worlds).1 := by
  induction worlds generalizing replayed live with
  | nil => exact inStep
  | cons world worlds ih =>
    simp only [updateAll, foldl_append]
    exact ih (updateWorldState_inStep ops inStep world)

end

/-- A patch exists exactly between different snapshots and turns the old one into the new one, and
replaying what a run of updates persisted gives the baseline it ended with. -/
theorem world_state_replays {State Snapshot : Type} (ops : ReplayOps State Snapshot) :
    (∀ previous current : WorldStateSnapshot Number, current.nullFree = true →
      (current.mergePatchFrom previous = none ↔ previous.eq current = true) ∧
      ∀ patch, current.mergePatchFrom previous = some patch →
        (previous.applyMergePatch patch).eq current = true) ∧
    (∀ (start : WorldStateSnapshot Number) (worlds : List (WorldState Number)),
      (updateAll (some start) worlds).1.isSome = true ∧
      InStep ((WorldStateItem.persisted ⟨true, start.intoObject⟩ ::
          (updateAll (some start) worlds).2).foldl (replayWorldState (worldStateOps ops)) none)
        (updateAll (some start) worlds).1) ∧
    ∀ worlds : List (WorldState Number), InStep
      ((updateAll none worlds).2.foldl (replayWorldState (worldStateOps ops)) none)
      (updateAll none worlds).1 := by
  refine ⟨?_, ?_, ?_⟩
  · intro previous current free
    refine ⟨current.mergePatchFrom_none previous, ?_⟩
    intro patch created
    exact eq_applyMergePatch free previous.eq_refl created
  · intro start worlds
    refine ⟨isSome_updateAll start worlds, ?_⟩
    exact updateAll_inStep ops worlds (.some start.eq_refl)
  · intro worlds
    exact updateAll_inStep ops worlds .none

def objectSections : WorldStateSnapshot Nat :=
  ⟨⟨[("a", .object [("x", .number 1)]), ("c", .bool true)], by decide⟩⟩

def replacedSections : WorldStateSnapshot Nat :=
  ⟨⟨[("a", .number 2), ("b", .object [("y", .array [.null])])], by decide⟩⟩

theorem sections_replaced :
    (replacedSections.mergePatchFrom objectSections).map JsonObject.fields =
        some [("c", .null), ("a", .number 2), ("b", .object [("y", .array [.null])])] ∧
      ((replacedSections.mergePatchFrom objectSections).all fun patch =>
        (objectSections.applyMergePatch patch).eq replacedSections) = true := by
  have patches := (world_state_replays plainOps).1 objectSections replacedSections (by decide)
  refine ⟨rfl, ?_⟩
  rw [all_eq_true_iff_get]
  intro created
  exact patches.2 _ (some_get created).symm

end OpenInterpreter.WorldStateBaseline
