import OpenInterpreter.KeyedList

/-! JSON values as `serde_json` holds them. An object keeps its fields in the order of insertion,
and `==` does not look at that order. Numbers are any type with decidable equality. -/

namespace OpenInterpreter.Json

open KeyedList List Option Bool

inductive Value (Number : Type) where
  | null
  | bool (value : Bool)
  | number (value : Number)
  | string (value : String)
  | array (items : List (Value Number))
  | object (fields : List (String × Value Number))
  deriving Repr

abbrev Fields (Number : Type) := List (String × Value Number)

variable {Number : Type}

@[induction_eliminator]
theorem Value.induction {motive : Value Number → Prop} (null : motive .null)
    (bool : ∀ value, motive (.bool value)) (number : ∀ value, motive (.number value))
    (string : ∀ value, motive (.string value))
    (array : ∀ items, (∀ item ∈ items, motive item) → motive (.array items))
    (object : ∀ fields, (∀ key value, (key, value) ∈ fields → motive value) →
      motive (.object fields)) (value : Value Number) : motive value := by
  apply @Value.rec Number motive (fun items => ∀ item ∈ items, motive item)
  · exact null
  · exact bool
  · exact number
  · exact string
  · exact array
  · exact object
  · exact fun _ member => (not_mem_nil member).elim
  · exact fun _ _ first rest => forall_mem_cons.mpr ⟨first, rest⟩
  · exact fun _ _ member => (not_mem_nil member).elim
  · exact fun head tail first rest => (forall_entries_cons head tail).mpr ⟨first, rest⟩
  · exact fun _ _ held => held

def Value.isNull : Value Number → Bool
  | .null => true
  | _ => false

def Value.asObject : Value Number → Option (Fields Number)
  | .object fields => some fields
  | _ => none

mutual

def Value.distinct : Value Number → Bool
  | .array items => distinctItems items
  | .object fields => decide (keys fields).Nodup && distinctFields fields
  | _ => true

def distinctItems : List (Value Number) → Bool
  | [] => true
  | item :: items => item.distinct && distinctItems items

def distinctFields : Fields Number → Bool
  | [] => true
  | (_, value) :: fields => value.distinct && distinctFields fields

end

mutual

def Value.nullFree : Value Number → Bool
  | .object fields => nullFreeFields fields
  | _ => true

def nullFreeFields : Fields Number → Bool
  | [] => true
  | (_, value) :: fields => !value.isNull && value.nullFree && nullFreeFields fields

end

section

variable [DecidableEq Number]

mutual

def Value.eq : Value Number → Value Number → Bool
  | .null, .null => true
  | .bool left, .bool right => decide (left = right)
  | .number left, .number right => decide (left = right)
  | .string left, .string right => decide (left = right)
  | .array left, .array right => eqItems left right
  | .object left, .object right => decide (left.length = right.length) && eqFields left right
  | _, _ => false

def eqItems : List (Value Number) → List (Value Number) → Bool
  | [], [] => true
  | left :: lefts, right :: rights => left.eq right && eqItems lefts rights
  | _, _ => false

def eqFields : Fields Number → Fields Number → Bool
  | [], _ => true
  | (key, value) :: rest, other =>
    (match get key other with
    | some found => value.eq found
    | none => false) && eqFields rest other

end

end

theorem distinct_array (items : List (Value Number)) :
    (Value.array items).distinct = true ↔ ∀ item ∈ items, item.distinct = true := by
  rw [Value.distinct]
  induction items with
  | nil => simp [distinctItems]
  | cons item items ih => rw [distinctItems, and_eq_true, ih, forall_mem_cons]

theorem distinct_object (fields : Fields Number) :
    (Value.object fields).distinct = true ↔
      (keys fields).Nodup ∧ ∀ key value, get key fields = some value → value.distinct = true := by
  rw [Value.distinct, and_eq_true, decide_eq_true_eq]
  apply and_congr_right
  intro nodup
  have listed : distinctFields fields = true ↔
      ∀ key value, (key, value) ∈ fields → value.distinct = true := by
    clear nodup
    induction fields with
    | nil => simp [distinctFields]
    | cons field fields ih =>
      rw [distinctFields, and_eq_true, ih, forall_entries_cons]
  rw [listed]
  exact ⟨fun held key value found => held key value (mem_of_get found),
    fun held key value member => held key value (get_of_mem nodup member)⟩

theorem distinct_asObject {value : Value Number} (distinct : value.distinct = true) :
    (Value.object (value.asObject.getD [])).distinct = true := by
  cases value <;> first | rfl | exact distinct

theorem nullFree_object (fields : Fields Number) :
    (Value.object fields).nullFree = true ↔
      ∀ key value, (key, value) ∈ fields → value.isNull = false ∧ value.nullFree = true := by
  rw [Value.nullFree]
  induction fields with
  | nil => simp [nullFreeFields]
  | cons field fields ih =>
    rw [nullFreeFields, and_eq_true, and_eq_true, not_eq_true', ih, forall_entries_cons]

section

variable [DecidableEq Number]

def Value.Same (left right : Value Number) : Prop := left.eq right = true

def SameAt (left right : Option (Value Number)) : Prop := Option.Rel Value.Same left right

def SameFields (left right : Fields Number) : Prop := ∀ key, SameAt (get key left) (get key right)

theorem SameAt.isSome_eq {left right : Option (Value Number)} (same : SameAt left right) :
    left.isSome = right.isSome := by
  cases same <;> rfl

theorem SameAt.trans {left middle right : Option (Value Number)} (first : SameAt left middle)
    (second : SameAt middle right)
    (values : ∀ value other last, left = some value → middle = some other → right = some last →
      value.Same other → other.Same last → value.Same last) : SameAt left right := by
  cases first with
  | none => exact second
  | some here =>
    cases second with
    | some there => exact .some (values _ _ _ rfl rfl rfl here there)

theorem eqFields_iff (left right : Fields Number) :
    eqFields left right = true ↔ ∀ key value, (key, value) ∈ left →
      ∃ found, get key right = some found ∧ value.Same found := by
  induction left with
  | nil => simp [eqFields]
  | cons field left ih =>
    rw [eqFields, and_eq_true, ih, forall_entries_cons]
    apply and_congr_left
    cases get field.1 right with
    | none => simp
    | some found => simp [Value.Same]

theorem same_object {left right : Fields Number} (distinctLeft : (keys left).Nodup)
    (distinctRight : (keys right).Nodup) :
    (Value.object left).Same (Value.object right) ↔ SameFields left right := by
  rw [Value.Same, Value.eq, and_eq_true, decide_eq_true_eq, eqFields_iff]
  constructor
  · intro equal key
    have shared := (same_keys distinctLeft distinctRight).mp ⟨equal.1, fun key member => by
      obtain ⟨value, held⟩ := isSome_iff_exists.mp ((get_isSome key left).mpr member)
      obtain ⟨found, there, _⟩ := equal.2 key value (mem_of_get held)
      exact (get_isSome key right).mp (isSome_of_eq_some there)⟩ key
    cases held : get key left with
    | none =>
      rw [get_eq_none, shared, ← get_eq_none] at held
      rw [held]
      exact .none
    | some value =>
      obtain ⟨found, there, same⟩ := equal.2 key value (mem_of_get held)
      rw [there]
      exact .some same
  · intro same
    have shared : ∀ key, key ∈ keys left ↔ key ∈ keys right := by
      intro key
      rw [← get_isSome, ← get_isSome, (same key).isSome_eq]
    refine ⟨((same_keys distinctLeft distinctRight).mpr shared).1, ?_⟩
    intro key value member
    have fields := same key
    rw [get_of_mem distinctLeft member] at fields
    cases there : get key right with
    | none => rw [there] at fields; cases fields
    | some found =>
      rw [there] at fields
      cases fields with
      | some same => exact ⟨found, rfl, same⟩

theorem same_array (left right : List (Value Number)) :
    (Value.array left).Same (Value.array right) ↔ Forall₂ Value.Same left right := by
  rw [Value.Same, Value.eq]
  induction left generalizing right with
  | nil => cases right <;> simp [eqItems]
  | cons item left ih =>
    cases right with
    | nil => simp [eqItems]
    | cons other right =>
      rw [eqItems, and_eq_true, ih, forall₂_cons]
      rfl

theorem Value.same_refl {value : Value Number} (distinct : value.distinct = true) :
    value.Same value := by
  induction value with
  | null => rfl
  | bool | number | string => exact decide_eq_true rfl
  | array items ih =>
    rw [distinct_array] at distinct
    rw [same_array, forall₂_same]
    exact fun item member => ih item member (distinct item member)
  | object fields ih =>
    rw [distinct_object] at distinct
    rw [same_object distinct.1 distinct.1]
    intro key
    cases held : get key fields with
    | none => exact .none
    | some value => exact .some (ih key value (mem_of_get held) (distinct.2 key value held))

theorem Value.same_cases {left right : Value Number} (same : left.Same right) :
    left = right ∨ (∃ items others, left = .array items ∧ right = .array others) ∨
      ∃ fields others, left = .object fields ∧ right = .object others := by
  unfold Value.Same at same
  cases left <;> cases right <;> simp_all [Value.eq]

theorem forall₂_trans {left middle right : List (Value Number)}
    (trans : ∀ item ∈ left, ∀ other last : Value Number, other ∈ middle → last ∈ right →
      item.Same other → other.Same last → item.Same last)
    (first : Forall₂ Value.Same left middle) (second : Forall₂ Value.Same middle right) :
    Forall₂ Value.Same left right := by
  induction first generalizing right with
  | nil => exact second
  | cons head tail ih =>
    cases second with
    | cons next rest =>
      constructor
      · exact trans _ mem_cons_self _ _ mem_cons_self mem_cons_self head next
      · apply ih _ rest
        intro item member other last among beyond
        exact trans item (mem_cons_of_mem _ member) other last
          (mem_cons_of_mem _ among) (mem_cons_of_mem _ beyond)

theorem Value.same_trans {left middle right : Value Number} (distinctLeft : left.distinct = true)
    (distinctMiddle : middle.distinct = true) (distinctRight : right.distinct = true)
    (first : left.Same middle) (second : middle.Same right) : left.Same right := by
  induction left generalizing middle right with
  | array items ih =>
    obtain rfl | ⟨_, others, shape, rfl⟩ | ⟨_, _, shape, _⟩ := same_cases first
    · exact second
    · obtain rfl | ⟨_, ends, shape, rfl⟩ | ⟨_, _, shape, _⟩ := same_cases second
      · exact first
      · rw [distinct_array] at distinctLeft distinctMiddle distinctRight
        rw [same_array] at first second ⊢
        apply forall₂_trans _ first second
        intro item member other last among beyond
        exact ih item member (distinctLeft item member) (distinctMiddle other among)
          (distinctRight last beyond)
      · cases shape
    · cases shape
  | object fields ih =>
    obtain rfl | ⟨_, _, shape, _⟩ | ⟨_, others, shape, rfl⟩ := same_cases first
    · exact second
    · cases shape
    · obtain rfl | ⟨_, _, shape, _⟩ | ⟨_, ends, shape, rfl⟩ := same_cases second
      · exact first
      · cases shape
      · rw [distinct_object] at distinctLeft distinctMiddle distinctRight
        rw [same_object distinctLeft.1 distinctMiddle.1] at first
        rw [same_object distinctMiddle.1 distinctRight.1] at second
        rw [same_object distinctLeft.1 distinctRight.1]
        intro key
        apply (first key).trans (second key)
        intro value other last held found final
        exact ih key value (mem_of_get held) (distinctLeft.2 key value held)
          (distinctMiddle.2 key other found) (distinctRight.2 key last final)
  | _ =>
    obtain rfl | ⟨_, _, shape, _⟩ | ⟨_, _, shape, _⟩ := same_cases first
    · exact second
    · cases shape
    · cases shape

end

end OpenInterpreter.Json
