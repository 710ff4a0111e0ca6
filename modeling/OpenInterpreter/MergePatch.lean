import OpenInterpreter.Json

/-! The merge patches of `core/src/context/world_state/mod.rs`: an object in which null deletes a
field. The patch from one value to another, applied to the first, gives the second. -/

namespace OpenInterpreter.MergePatch

open KeyedList Json List Option Bool

variable {Number : Type}

/-- The first loop of `create_merge_patch`. -/
def insertRemovals (current : Fields Number) (previous patch : Fields Number) : Fields Number :=
  previous.foldl (fun patch field =>
    if (get field.1 current).isSome then patch else insert field.1 .null patch) patch

mutual

def applyMergePatchValue (target : Value Number) : Value Number → Value Number
  | .object patch => .object (applyPatchFields (target.asObject.getD []) patch)
  | patch => patch

def applyPatchFields (target : Fields Number) : Fields Number → Fields Number
  | [] => target
  | (key, value) :: rest =>
    if value.isNull then applyPatchFields (remove key target) rest
    else
      applyPatchFields
        (insert key (applyMergePatchValue ((get key target).getD .null) value) target) rest

end

mutual

def removeNullObjectFields : Value Number → Value Number
  | .object values => .object (removeNullFields values)
  | value => value

def removeNullFields : Fields Number → Fields Number
  | [] => []
  | (key, value) :: rest =>
    if value.isNull then removeNullFields rest
    else (key, removeNullObjectFields value) :: removeNullFields rest

end

theorem get_insertRemovals (current previous patch : Fields Number) (key : String) :
    get key (insertRemovals current previous patch) =
      if (get key previous).isSome ∧ get key current = none then some .null
      else get key patch := by
  induction previous generalizing patch with
  | nil => simp [insertRemovals]
  | cons field previous ih =>
    have step : insertRemovals current (field :: previous) patch = insertRemovals current previous
          (if (get field.1 current).isSome then patch else insert field.1 .null patch) := rfl
    rw [step, ih, get_cons]
    by_cases same : field.1 = key
    · subst same
      cases get field.1 current <;> simp [get_insert]
    · split
      · rfl
      · split
        · rfl
        · rw [get_insert, if_neg same]

theorem nodup_insertRemovals (current previous : Fields Number) {patch : Fields Number}
    (distinct : (keys patch).Nodup) : (keys (insertRemovals current previous patch)).Nodup := by
  induction previous generalizing patch with
  | nil => exact distinct
  | cons field previous ih =>
    rw [insertRemovals, foldl_cons]
    apply ih
    split
    · exact distinct
    · exact nodup_insert _ _ distinct

theorem get_applyPatchFields (target : Fields Number) {patch : Fields Number}
    (distinct : (keys patch).Nodup) (key : String) :
    get key (applyPatchFields target patch) =
      match get key patch with
      | none => get key target
      | some value =>
        if value.isNull then none
        else some (applyMergePatchValue ((get key target).getD .null) value) := by
  induction patch generalizing target with
  | nil => rw [applyPatchFields]; rfl
  | cons field patch ih =>
    obtain ⟨first, value⟩ := field
    rw [KeyedList.keys_cons, nodup_cons] at distinct
    rw [applyPatchFields, get_cons]
    by_cases same : first = key
    · subst same
      split
      · rename_i null
        rw [ih _ distinct.2, (get_eq_none first patch).mpr distinct.1]
        simp [get_remove, null]
      · rename_i present
        rw [ih _ distinct.2, (get_eq_none first patch).mpr distinct.1]
        simp [get_insert, present]
    · split
      · rw [ih _ distinct.2, get_remove, if_neg same]
      · rw [ih _ distinct.2, get_insert, if_neg same]

variable {patch value : Value Number} {target : Fields Number} {key : String}

theorem nodup_applyPatchFields (patch : Fields Number) (distinct : (keys target).Nodup) :
    (keys (applyPatchFields target patch)).Nodup := by
  induction patch generalizing target with
  | nil => rw [applyPatchFields]; exact distinct
  | cons field patch ih =>
    rw [applyPatchFields]
    split
    · exact ih (nodup_remove _ distinct)
    · exact ih (nodup_insert _ _ distinct)

theorem distinct_applyMergePatchValue {target : Value Number}
    (distinctTarget : target.distinct = true) (distinct : patch.distinct = true) :
    (applyMergePatchValue target patch).distinct = true := by
  induction patch generalizing target with
  | object patch ih =>
    have fields := distinct_asObject distinctTarget
    rw [distinct_object] at fields distinct
    rw [applyMergePatchValue, distinct_object]
    refine ⟨nodup_applyPatchFields patch fields.1, ?_⟩
    intro key value found
    rw [get_applyPatchFields _ distinct.1] at found
    split at found
    · exact fields.2 key value found
    · rename_i patched held
      split at found
      · cases found
      · cases found
        apply ih key patched (mem_of_get held) _ (distinct.2 key patched held)
        cases old : get key (target.asObject.getD []) with
        | none => rfl
        | some value => exact fields.2 key value old
  | _ =>
    rw [applyMergePatchValue]
    · exact distinct
    · simp

theorem mem_removeNullFields {fields : Fields Number}
    (member : (key, value) ∈ removeNullFields fields) :
    ∃ old, (key, old) ∈ fields ∧ old.isNull = false ∧ value = removeNullObjectFields old := by
  induction fields with
  | nil => simp [removeNullFields] at member
  | cons field fields ih =>
    rw [removeNullFields] at member
    split at member
    · obtain ⟨old, listed, kept⟩ := ih member
      exact ⟨old, mem_cons_of_mem _ listed, kept⟩
    · rename_i present
      cases mem_cons.mp member with
      | inl same =>
        cases same
        exact ⟨field.2, mem_cons_self, not_eq_true _ ▸ present, rfl⟩
      | inr later =>
        obtain ⟨old, listed, kept⟩ := ih later
        exact ⟨old, mem_cons_of_mem _ listed, kept⟩

theorem keys_removeNullFields (fields : Fields Number) :
    (keys (removeNullFields fields)).Sublist (keys fields) := by
  induction fields with
  | nil => simp [removeNullFields]
  | cons field fields ih =>
    rw [removeNullFields]
    split
    · exact ih.cons _
    · exact ih.cons_cons _

theorem isNull_removeNullObjectFields (value : Value Number) :
    (removeNullObjectFields value).isNull = value.isNull := by
  cases value <;> simp [removeNullObjectFields, Value.isNull]

theorem distinct_removeNullObjectFields (distinct : value.distinct = true) :
    (removeNullObjectFields value).distinct = true := by
  induction value with
  | object fields ih =>
    have nodup := (keys_removeNullFields fields).nodup ((distinct_object fields).mp distinct).1
    rw [removeNullObjectFields, distinct_object]
    refine ⟨nodup, ?_⟩
    intro key value found
    obtain ⟨old, listed, _, rfl⟩ := mem_removeNullFields (mem_of_get found)
    rw [distinct_object] at distinct
    exact ih key old listed (distinct.2 key old (get_of_mem distinct.1 listed))
  | _ =>
    rw [removeNullObjectFields]
    · exact distinct
    · simp

theorem nullFree_removeNullObjectFields (value : Value Number) :
    (removeNullObjectFields value).nullFree = true := by
  induction value with
  | object fields ih =>
    rw [removeNullObjectFields, nullFree_object]
    intro key value member
    obtain ⟨old, listed, present, rfl⟩ := mem_removeNullFields member
    exact ⟨(isNull_removeNullObjectFields old).trans present, ih key old listed⟩
  | _ =>
    rw [removeNullObjectFields]
    · rfl
    · simp

variable [DecidableEq Number]

mutual

def createMergePatch (previous : Value Number) : Value Number → Option (Value Number)
  | .object current =>
    if previous.eq (.object current) then none
    else
      some (.object (insertChanges previous.asObject current
        (insertRemovals current (previous.asObject.getD []) [])))
  | current => if previous.eq current then none else some current

/-- The second loop of `create_merge_patch`. -/
def insertChanges (previous : Option (Fields Number)) :
    Fields Number → Fields Number → Fields Number
  | [], patch => patch
  | (key, currentValue) :: rest, patch =>
    match previous.bind (get key) with
    | none => insertChanges previous rest (insert key currentValue patch)
    | some previousValue =>
      match createMergePatch previousValue currentValue with
      | some valuePatch => insertChanges previous rest (insert key valuePatch patch)
      | none => insertChanges previous rest patch

end

def change (previous : Option (Fields Number)) (key : String) (value : Value Number) :
    Option (Value Number) :=
  match previous.bind (get key) with
  | none => some value
  | some previousValue => createMergePatch previousValue value

theorem insertChanges_cons (previous : Option (Fields Number)) (key : String)
    (value : Value Number) (rest patch : Fields Number) :
    insertChanges previous ((key, value) :: rest) patch = insertChanges previous rest
        (match change previous key value with
        | some valuePatch => insert key valuePatch patch
        | none => patch) := by
  rw [insertChanges, change]
  cases previous.bind (get key) with
  | none => rfl
  | some previousValue =>
    dsimp only
    cases createMergePatch previousValue value <;> rfl

variable {current : Fields Number} {previous : Value Number}

theorem get_insertChanges (previous : Option (Fields Number)) (distinct : (keys current).Nodup)
    (patch : Fields Number) (key : String) :
    get key (insertChanges previous current patch) =
      match get key current with
      | none => get key patch
      | some value => (change previous key value).or (get key patch) := by
  induction current generalizing patch with
  | nil => rw [insertChanges]; rfl
  | cons field current ih =>
    obtain ⟨first, value⟩ := field
    rw [KeyedList.keys_cons, nodup_cons] at distinct
    rw [insertChanges_cons, ih distinct.2, get_cons]
    by_cases same : first = key
    · subst same
      rw [(get_eq_none first current).mpr distinct.1]
      cases changed : change previous first value with
      | none => simp [changed]
      | some valuePatch => simp [changed, get_insert]
    · rw [if_neg same]
      have unchanged : get key (match change previous first value with
          | some valuePatch => insert first valuePatch patch
          | none => patch) = get key patch := by
        cases change previous first value with
        | none => rfl
        | some valuePatch => rw [get_insert, if_neg same]
      rw [unchanged]

theorem nodup_insertChanges (previous : Option (Fields Number)) (current : Fields Number)
    {patch : Fields Number} (distinct : (keys patch).Nodup) :
    (keys (insertChanges previous current patch)).Nodup := by
  induction current generalizing patch with
  | nil => rw [insertChanges]; exact distinct
  | cons field current ih =>
    rw [insertChanges_cons]
    apply ih
    split
    · exact nodup_insert _ _ distinct
    · exact distinct

def fieldsPatch (previous : Option (Fields Number)) (current : Fields Number) : Fields Number :=
  insertChanges previous current (insertRemovals current (previous.getD []) [])

theorem nodup_fieldsPatch (previous : Option (Fields Number)) (current : Fields Number) :
    (keys (fieldsPatch previous current)).Nodup :=
  nodup_insertChanges previous current (nodup_insertRemovals current _ nodup_nil)

theorem get_fieldsPatch (previous : Option (Fields Number)) (distinct : (keys current).Nodup)
    (key : String) :
    get key (fieldsPatch previous current) =
      match get key current with
      | none => if (get key (previous.getD [])).isSome then some .null else none
      | some value => change previous key value := by
  rw [fieldsPatch, get_insertChanges previous distinct, get_insertRemovals]
  cases get key current with
  | none | some => simp

theorem createMergePatch_object (previous : Value Number) (current : Fields Number) :
    createMergePatch previous (.object current) =
      if previous.eq (.object current) then none
      else some (.object (fieldsPatch previous.asObject current)) := by
  rfl

theorem createMergePatch_none (previous current : Value Number) :
    createMergePatch previous current = none ↔ previous.Same current := by
  unfold Value.Same
  cases current <;> simp [createMergePatch]

theorem createMergePatch_isNull {current : Value Number}
    (created : createMergePatch previous current = some patch) (present : current.isNull = false) :
    patch.isNull = false := by
  cases current <;> simp [createMergePatch] at created
  all_goals rw [← created.2]
  all_goals first | rfl | exact present

theorem distinct_patched {previous : Option (Fields Number)}
    (distinct : (Value.object current).distinct = true)
    (values : ∀ key value old patch, get key current = some value →
      createMergePatch old value = some patch → patch.distinct = true) :
    (Value.object (fieldsPatch previous current)).distinct = true := by
  rw [distinct_object] at distinct ⊢
  refine ⟨nodup_fieldsPatch _ _, ?_⟩
  intro key value found
  rw [get_fieldsPatch _ distinct.1] at found
  cases held : get key current with
  | none =>
    simp only [held] at found
    split at found
    · cases found
      rfl
    · cases found
  | some wanted =>
    simp only [held, change] at found
    split at found
    · cases found
      exact distinct.2 key _ held
    · exact values key wanted _ value held found

theorem distinct_createMergePatch {current : Value Number} (distinct : current.distinct = true)
    (created : createMergePatch previous current = some patch) : patch.distinct = true := by
  induction current generalizing previous patch with
  | object fields ih =>
    rw [createMergePatch_object] at created
    split at created
    · cases created
    · cases created
      apply distinct_patched distinct
      intro key value old patch held inner
      rw [distinct_object] at distinct
      exact ih key value (mem_of_get held) (distinct.2 key value held) inner
  | _ =>
    simp [createMergePatch] at created
    rw [← created.2]
    exact distinct

theorem applyMergePatchValue_null (distinct : value.distinct = true)
    (free : value.nullFree = true) : (applyMergePatchValue .null value).Same value := by
  induction value with
  | object fields ih =>
    have distinctNull : (Value.null : Value Number).distinct = true := rfl
    have distinctResult := distinct_applyMergePatchValue distinctNull distinct
    rw [applyMergePatchValue, distinct_object] at distinctResult
    rw [distinct_object] at distinct
    rw [nullFree_object] at free
    rw [applyMergePatchValue, same_object distinctResult.1 distinct.1]
    intro key
    rw [get_applyPatchFields _ distinct.1]
    cases held : get key fields with
    | none => exact .none
    | some value =>
      obtain ⟨present, inner⟩ := free key value (mem_of_get held)
      simp only [present]
      exact .some (ih key value (mem_of_get held) (distinct.2 key value held) inner)
  | _ =>
    rw [applyMergePatchValue]
    · exact Value.same_refl distinct
    · simp

theorem sameFields_of_same {left right : Value Number} (distinctLeft : left.distinct = true)
    (distinctRight : right.distinct = true) (same : left.Same right) :
    SameFields (left.asObject.getD []) (right.asObject.getD []) := by
  obtain rfl | ⟨items, others, rfl, rfl⟩ | ⟨fields, others, rfl, rfl⟩ := Value.same_cases same
  · cases left with
    | object fields =>
      have nodup := ((distinct_object fields).mp distinctLeft).1
      exact (same_object nodup nodup).mp same
    | _ => exact fun _ => .none
  · exact fun _ => .none
  · have nodupLeft := ((distinct_object fields).mp distinctLeft).1
    have nodupRight := ((distinct_object others).mp distinctRight).1
    exact (same_object nodupLeft nodupRight).mp same

theorem get_of_sameFields {previous : Fields Number} (same : SameFields target previous)
    {before : Value Number} (old : get key previous = some before) :
    ∃ held, get key target = some held ∧ held.Same before := by
  have here := same key
  rw [old] at here
  cases found : get key target with
  | none =>
    rw [found] at here
    cases here
  | some held =>
    rw [found] at here
    cases here with
    | some heldSame => exact ⟨held, rfl, heldSame⟩

theorem get_none_of_sameFields {previous : Fields Number} (same : SameFields target previous)
    (old : get key previous = none) : get key target = none := by
  have here := same key
  rw [old] at here
  cases found : get key target with
  | none => rfl
  | some held =>
    rw [found] at here
    cases here

theorem sameFields_patched (previous : Option (Fields Number))
    (distinctTarget : (Value.object target).distinct = true)
    (distinctPrevious : (Value.object (previous.getD [])).distinct = true)
    (distinct : (Value.object current).distinct = true)
    (free : (Value.object current).nullFree = true) (same : SameFields target (previous.getD []))
    (values : ∀ key value old held patch, get key current = some value →
      get key (previous.getD []) = some old → get key target = some held → held.Same old →
      createMergePatch old value = some patch → (applyMergePatchValue held patch).Same value) :
    SameFields (applyPatchFields target (fieldsPatch previous current)) current := by
  rw [distinct_object] at distinctTarget distinctPrevious distinct
  rw [nullFree_object] at free
  have lookup : ∀ key, previous.bind (get key) = get key (previous.getD []) := by
    intro key
    cases previous <;> rfl
  intro key
  rw [get_applyPatchFields _ (nodup_fieldsPatch _ _), get_fieldsPatch _ distinct.1]
  cases wanted : get key current with
  | none =>
    cases old : get key (previous.getD []) with
    | none =>
      have here := same key
      rw [old] at here
      simpa using here
    | some value =>
      exact .none
  | some value =>
    obtain ⟨present, inner⟩ := free key value (mem_of_get wanted)
    have distinctValue := distinct.2 key value wanted
    simp only [change, lookup]
    cases old : get key (previous.getD []) with
    | none =>
      simp only [present, get_none_of_sameFields same old]
      exact .some (applyMergePatchValue_null distinctValue inner)
    | some before =>
      obtain ⟨held, found, heldSame⟩ := get_of_sameFields same old
      dsimp only
      cases created : createMergePatch before value with
      | none =>
        rw [createMergePatch_none] at created
        rw [found]
        exact .some (Value.same_trans (distinctTarget.2 key held found)
          (distinctPrevious.2 key before old) distinctValue heldSame created)
      | some patch =>
        simp only [createMergePatch_isNull created present, found]
        exact .some (values key value before held patch wanted old found heldSame created)

theorem same_patched {target current : Value Number} (distinctTarget : target.distinct = true)
    (distinctPrevious : previous.distinct = true) (distinct : current.distinct = true)
    (free : current.nullFree = true) (same : target.Same previous)
    (created : createMergePatch previous current = some patch) :
    (applyMergePatchValue target patch).Same current := by
  induction current generalizing target previous patch with
  | object fields ih =>
    have distinctPatch := distinct_createMergePatch distinct created
    have distinctResult := distinct_applyMergePatchValue distinctTarget distinctPatch
    rw [createMergePatch_object] at created
    split at created
    · cases created
    · cases created
      rw [applyMergePatchValue, distinct_object] at distinctResult
      rw [applyMergePatchValue,
        same_object distinctResult.1 ((distinct_object fields).mp distinct).1]
      have distinctFields := distinct_asObject distinctTarget
      have distinctOld := distinct_asObject distinctPrevious
      apply sameFields_patched _ distinctFields distinctOld distinct free
        (sameFields_of_same distinctTarget distinctPrevious same)
      intro key value old held patch wanted before found heldSame inner
      rw [nullFree_object] at free
      rw [distinct_object] at distinct distinctFields distinctOld
      exact ih key value (mem_of_get wanted) (distinctFields.2 key held found)
        (distinctOld.2 key old before) (distinct.2 key value wanted)
        (free key value (mem_of_get wanted)).2 heldSame inner
  | _ =>
    simp [createMergePatch] at created
    rw [← created.2, applyMergePatchValue]
    · exact Value.same_refl distinct
    · simp

end OpenInterpreter.MergePatch
