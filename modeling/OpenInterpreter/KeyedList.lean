import Mathlib.Data.List.Nodup
import Mathlib.Data.List.Perm.Subperm

/-! Maps as lists of keys and values in the order of insertion. A map's content is what `get`
says of each key; the lemmas below reduce every operation to that. -/

namespace OpenInterpreter.KeyedList

open List Option


variable {κ β : Type}

def keys (entries : List (κ × β)) : List κ := entries.map Prod.fst

@[simp]
theorem keys_nil : keys ([] : List (κ × β)) = [] := rfl

@[simp]
theorem keys_cons (entry : κ × β) (rest : List (κ × β)) :
    keys (entry :: rest) = entry.1 :: keys rest := rfl

theorem forall_entries_cons {holds : κ → β → Prop} (entry : κ × β) (rest : List (κ × β)) :
    (∀ key value, (key, value) ∈ entry :: rest → holds key value) ↔
      holds entry.1 entry.2 ∧ ∀ key value, (key, value) ∈ rest → holds key value := by
  constructor
  · intro held
    exact ⟨held entry.1 entry.2 mem_cons_self,
      fun key value later => held key value (mem_cons_of_mem _ later)⟩
  · intro held key value member
    cases mem_cons.mp member with
    | inl same =>
      cases same
      exact held.1
    | inr later => exact held.2 key value later

variable {key : κ} {value : β} {entries : List (κ × β)}

theorem mem_keys (member : (key, value) ∈ entries) : key ∈ keys entries :=
  mem_map.mpr ⟨(key, value), member, rfl⟩

theorem same_keys {γ : Type} {left : List (κ × β)} {right : List (κ × γ)}
    (distinctLeft : (keys left).Nodup) (distinctRight : (keys right).Nodup) :
    (left.length = right.length ∧ ∀ key ∈ keys left, key ∈ keys right) ↔
      ∀ key, key ∈ keys left ↔ key ∈ keys right := by
  have lengthLeft : (keys left).length = left.length := length_map _
  have lengthRight : (keys right).length = right.length := length_map _
  constructor
  · intro shared key
    have perm := (distinctLeft.subperm shared.2).perm_of_length_le (by omega)
    exact perm.mem_iff
  · intro same
    have perm := (perm_ext_iff_of_nodup distinctLeft distinctRight).mpr same
    have lengths := perm.length_eq
    exact ⟨by omega, fun key member => (same key).mp member⟩

variable [DecidableEq κ]

def get (key : κ) : List (κ × β) → Option β
  | [] => none
  | (found, value) :: rest => if found = key then some value else get key rest

def insert (key : κ) (value : β) : List (κ × β) → List (κ × β)
  | [] => [(key, value)]
  | (found, old) :: rest =>
    if found = key then (key, value) :: rest else (found, old) :: insert key value rest

def remove (key : κ) (entries : List (κ × β)) : List (κ × β) :=
  entries.filter fun entry => entry.1 ≠ key

@[simp]
theorem get_nil (key : κ) : get key ([] : List (κ × β)) = none := rfl

theorem get_cons (key : κ) (entry : κ × β) (rest : List (κ × β)) :
    get key (entry :: rest) = if entry.1 = key then some entry.2 else get key rest := rfl

theorem get_isSome (key : κ) (entries : List (κ × β)) :
    (get key entries).isSome = true ↔ key ∈ keys entries := by
  induction entries with
  | nil => simp
  | cons entry rest ih =>
    rw [get_cons, keys_cons, mem_cons]
    split
    · rename_i same
      simp [same]
    · rename_i other
      rw [ih]
      exact ⟨.inr, fun member => member.resolve_left fun same => other same.symm⟩

theorem get_eq_none (key : κ) (entries : List (κ × β)) :
    get key entries = none ↔ key ∉ keys entries := by
  rw [← get_isSome, Bool.not_eq_true, isSome_eq_false_iff, isNone_iff_eq_none]

theorem eq_nil_iff (entries : List (κ × β)) : entries = [] ↔ ∀ key, get key entries = none := by
  constructor
  · rintro rfl key
    rfl
  · intro absent
    cases entries with
    | nil => rfl
    | cons entry rest => simpa [get_cons] using absent entry.1

theorem mem_of_get (found : get key entries = some value) : (key, value) ∈ entries := by
  induction entries with
  | nil => cases found
  | cons entry rest ih =>
    rw [get_cons] at found
    split at found
    · rename_i same
      cases found
      exact mem_cons.mpr (.inl (Prod.ext same.symm rfl))
    · exact mem_cons_of_mem _ (ih found)

theorem get_of_mem (distinct : (keys entries).Nodup) (member : (key, value) ∈ entries) :
    get key entries = some value := by
  induction entries with
  | nil => cases member
  | cons entry rest ih =>
    rw [keys_cons, nodup_cons] at distinct
    rw [get_cons]
    cases mem_cons.mp member with
    | inl same =>
      rw [← same]
      exact if_pos rfl
    | inr later =>
      have differs : entry.1 ≠ key := fun same => distinct.1 (same ▸ mem_keys later)
      rw [if_neg differs]
      exact ih distinct.2 later

theorem get_insert (key other : κ) (value : β) (entries : List (κ × β)) :
    get other (insert key value entries) = if key = other then some value else get other entries := by
  induction entries with
  | nil => rfl
  | cons entry rest ih =>
    rw [insert]
    split
    · rename_i same
      simp only [get_cons, same]
      split <;> rfl
    · rename_i differs
      rw [get_cons, ih, get_cons]
      split
      · rename_i here
        rw [if_neg fun same => differs (here.trans same.symm)]
      · rfl

theorem mem_keys_insert (key other : κ) (value : β) (entries : List (κ × β)) :
    other ∈ keys (insert key value entries) ↔ other = key ∨ other ∈ keys entries := by
  rw [← get_isSome, get_insert, ← get_isSome]
  split
  · rename_i same
    simp [same]
  · rename_i differs
    simp [show other ≠ key from fun same => differs same.symm]

theorem nodup_insert (key : κ) (value : β) (distinct : (keys entries).Nodup) :
    (keys (insert key value entries)).Nodup := by
  induction entries with
  | nil => simp [insert]
  | cons entry rest ih =>
    rw [keys_cons, nodup_cons] at distinct
    rw [insert]
    split
    · rename_i same
      rw [keys_cons, nodup_cons]
      exact same ▸ distinct
    · rename_i differs
      rw [keys_cons, nodup_cons, mem_keys_insert]
      exact ⟨fun listed => listed.elim differs distinct.1, ih distinct.2⟩

theorem get_remove (key other : κ) (entries : List (κ × β)) :
    get other (remove key entries) = if key = other then none else get other entries := by
  induction entries with
  | nil => simp [remove]
  | cons entry rest ih =>
    rw [remove, filter_cons]
    simp only [decide_eq_true_eq]
    by_cases here : entry.1 = key
    · rw [if_neg (fun differs => differs here), ← remove, ih, get_cons]
      split
      · rfl
      · rename_i differs
        rw [if_neg fun same => differs (here.symm.trans same)]
    · rw [if_pos here, ← remove, get_cons, ih, get_cons]
      split
      · rename_i same
        rw [if_neg fun removed => here (same.trans removed.symm)]
      · rfl

theorem nodup_remove (key : κ) (distinct : (keys entries).Nodup) :
    (keys (remove key entries)).Nodup :=
  distinct.sublist (filter_sublist.map Prod.fst)

theorem mem_of_mem_insert {entry : κ × β} (member : entry ∈ insert key value entries) :
    entry = (key, value) ∨ entry ∈ entries := by
  induction entries with
  | nil => exact .inl (mem_singleton.mp member)
  | cons head rest ih =>
    rw [insert] at member
    split at member
    · exact (mem_cons.mp member).imp id (mem_cons_of_mem _)
    · cases mem_cons.mp member with
      | inl here => exact .inr (here ▸ mem_cons_self)
      | inr later => exact (ih later).imp id (mem_cons_of_mem _)

theorem length_insert_of_mem (value : β) (member : key ∈ keys entries) :
    (insert key value entries).length = entries.length := by
  induction entries with
  | nil => cases member
  | cons entry rest ih =>
    rw [insert]
    split
    · rfl
    · rename_i differs
      have later := (mem_cons.mp member).resolve_left fun same => differs same.symm
      rw [length_cons, ih later, length_cons]

theorem length_insert_le (key : κ) (value : β) (entries : List (κ × β)) :
    (insert key value entries).length ≤ entries.length + 1 := by
  induction entries with
  | nil => exact Nat.le_refl _
  | cons entry rest ih =>
    rw [insert]
    split
    · exact Nat.le_succ _
    · exact Nat.succ_le_succ ih

theorem length_remove_lt (member : key ∈ keys entries) :
    (remove key entries).length < entries.length := by
  obtain ⟨entry, listed, same⟩ := mem_map.mp member
  apply length_filter_lt_length_iff_exists.mpr
  exact ⟨entry, listed, by simp [same]⟩

end OpenInterpreter.KeyedList
