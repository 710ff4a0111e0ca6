import Mathlib.Data.List.Basic
import Mathlib.Data.List.Infix

/-! Reserved names below the roots of a tree. A path through a reserved entry of a root is blocked,
unless a root on the way is at or below that entry. Only the first reserved entry is examined. -/

namespace OpenInterpreter.ReservedNames

open List Option Bool

variable {σ : Type} [DecidableEq σ]

def guardOf (names path root : List σ) : Option (List σ) :=
  names.findSome? fun name => if root ++ [name] <+: path then some (root ++ [name]) else none

def firstGuard (names : List σ) (roots : List (List σ)) (path : List σ) : Option (List σ) :=
  roots.findSome? (guardOf names path)

def reopened (roots : List (List σ)) (path guard : List σ) : Bool :=
  roots.any fun root => root <+: path ∧ guard <+: root

def blocked (names : List σ) (roots : List (List σ)) (path : List σ) : Bool :=
  (firstGuard names roots path).any fun guard => !reopened roots path guard

def AllReopened (names : List σ) (roots : List (List σ)) (path : List σ) : Prop :=
  ∀ root ∈ roots, ∀ name ∈ names, root ++ [name] <+: path →
    reopened roots path (root ++ [name]) = true

variable {roots : List (List σ)} {name : σ}

section

variable {names path root guard : List σ}

theorem guardOf_eq_some :
    guardOf names path root = some guard ↔
      ∃ name ∈ names, root ++ [name] = guard ∧ guard <+: path := by
  constructor
  · intro found
    obtain ⟨name, member, chosen⟩ := exists_of_findSome?_eq_some found
    split at chosen
    · rename_i below
      cases chosen
      exact ⟨name, member, rfl, below⟩
    · cases chosen
  · rintro ⟨name, member, rfl, below⟩
    have some_found : (guardOf names path root).isSome = true := by
      apply findSome?_isSome_iff.mpr
      exact ⟨name, member, by rw [if_pos below]; rfl⟩
    obtain ⟨other, found⟩ := isSome_iff_exists.mp some_found
    obtain ⟨otherName, _, chosen⟩ := exists_of_findSome?_eq_some found
    split at chosen
    · rename_i otherBelow
      cases chosen
      have same : root ++ [otherName] = root ++ [name] :=
        (prefix_of_prefix_length_le otherBelow below (by simp)).eq_of_length (by simp)
      rw [found, same]
    · cases chosen

theorem reopened_iff :
    reopened roots path guard = true ↔ ∃ root ∈ roots, root <+: path ∧ guard <+: root := by
  simp [reopened]

theorem not_reopened_self (apart : ∀ other ∈ roots, other ≠ guard) :
    reopened roots guard guard = false := by
  apply eq_false_iff.mpr
  intro open_again
  obtain ⟨other, member, below, above⟩ := reopened_iff.mp open_again
  exact apart other member (below.eq_of_length (Nat.le_antisymm below.length_le above.length_le))

theorem blocked_of_first (found : firstGuard names roots path = some guard) :
    blocked names roots path = !reopened roots path guard := by
  rw [blocked, found, any_some]

theorem blocked_of_allReopened (all : AllReopened names roots path) :
    blocked names roots path = false := by
  cases found : firstGuard names roots path with
  | none => rw [blocked, found, any_none]
  | some guard =>
    obtain ⟨root, member, first⟩ := exists_of_findSome?_eq_some found
    obtain ⟨name, listed, rfl, below⟩ := guardOf_eq_some.mp first
    rw [blocked_of_first found, all root member name listed below, Bool.not_true]

end

section

variable {names path root : List σ}

theorem guard_above_or_own (above : root <+: path)
    (deepest : ∀ other ∈ roots, other <+: path → other <+: root) {other guard : List σ}
    (member : other ∈ roots) (found : guardOf names path other = some guard) :
    guard <+: root ∨ other = root := by
  obtain ⟨name, _, rfl, below⟩ := guardOf_eq_some.mp found
  have outer : other <+: root := deepest other member ((prefix_append _ _).trans below)
  cases prefix_or_prefix_of_prefix below above with
  | inl upper => exact .inl upper
  | inr lower =>
    cases prefix_concat_iff.mp lower with
    | inl same => exact .inl (by rw [same])
    | inr inner =>
      exact .inr (outer.eq_of_length (Nat.le_antisymm outer.length_le inner.length_le))

/-- The deepest root is blocked only at its own reserved entries, and only when one of them is the
first to be found. -/
theorem blocked_iff_own_first (present : root ∈ roots) (above : root <+: path)
    (deepest : ∀ other ∈ roots, other <+: path → other <+: root) :
    blocked names roots path = true ↔ ∃ name ∈ names, root ++ [name] <+: path ∧
        firstGuard names roots path = some (root ++ [name]) := by
  constructor
  · intro shut
    cases found : firstGuard names roots path with
    | none =>
      rw [blocked, found] at shut
      cases shut
    | some guard =>
      rw [blocked_of_first found] at shut
      obtain ⟨other, member, first⟩ := exists_of_findSome?_eq_some found
      cases guard_above_or_own above deepest member first with
      | inl upper =>
        have open_again : reopened roots path guard = true :=
          reopened_iff.mpr ⟨root, present, above, upper⟩
        rw [open_again] at shut
        cases shut
      | inr own =>
        rw [own] at first
        obtain ⟨name, listed, rfl, below⟩ := guardOf_eq_some.mp first
        exact ⟨name, listed, below, rfl⟩
  · rintro ⟨name, _, below, found⟩
    have shut : reopened roots path (root ++ [name]) = false := by
      apply eq_false_iff.mpr
      intro open_again
      obtain ⟨other, member, covers, inner⟩ := reopened_iff.mp open_again
      have long := (inner.trans (deepest other member covers)).length_le
      simp only [length_append, length_singleton] at long
      omega
    rw [blocked_of_first found, shut, Bool.not_false]

theorem firstGuard_below (below : root ++ [name] <+: path)
    (deepest : ∀ other ∈ roots, other <+: path → other <+: root) :
    firstGuard names roots path = firstGuard names roots (root ++ [name]) := by
  have each : ∀ other ∈ roots, guardOf names path other = guardOf names (root ++ [name]) other := by
    intro other member
    ext guard
    rw [guardOf_eq_some, guardOf_eq_some]
    apply exists_congr
    intro otherName
    constructor
    · rintro ⟨listed, rfl, covers⟩
      refine ⟨listed, rfl, prefix_of_prefix_length_le covers below ?_⟩
      have outer := (deepest other member ((prefix_append _ _).trans covers)).length_le
      simpa using outer
    · rintro ⟨listed, same, covers⟩
      exact ⟨listed, same, covers.trans below⟩
  clear deepest
  induction roots with
  | nil => rfl
  | cons head tail ih =>
    rw [firstGuard, firstGuard, findSome?_cons, findSome?_cons, each head mem_cons_self]
    cases guardOf names (root ++ [name]) head with
    | some guard => rfl
    | none => exact ih fun other member => each other (mem_cons_of_mem _ member)

omit [DecidableEq σ] in
theorem deepest_of_absent (absent : root ++ [name] ∉ roots) :
    ∀ other ∈ roots, other <+: root ++ [name] → other <+: root := by
  intro other member covers
  cases prefix_concat_iff.mp covers with
  | inl same => exact absurd (same ▸ member) absent
  | inr upper => exact upper

theorem blocked_entry_iff (present : root ∈ roots) (listed : name ∈ names)
    (absent : root ++ [name] ∉ roots) :
    blocked names roots (root ++ [name]) = true ↔
      firstGuard names roots (root ++ [name]) = some (root ++ [name]) := by
  rw [blocked_iff_own_first present (prefix_append _ _) (deepest_of_absent absent)]
  constructor
  · rintro ⟨other, _, below, found⟩
    rw [found, below.eq_of_length (by simp)]
  · intro found
    exact ⟨name, listed, prefix_refl _, found⟩

theorem allReopened_of_open (present : root ∈ roots) (above : root <+: path)
    (deepest : ∀ other ∈ roots, other <+: path → other <+: root)
    (first : ∀ name ∈ names, root ++ [name] <+: path →
      firstGuard names roots (root ++ [name]) = some (root ++ [name]))
    (unblocked : blocked names roots path = false) : AllReopened names roots path := by
  intro other member name listed below
  have guarded := guardOf_eq_some.mpr ⟨name, listed, rfl, below⟩
  cases guard_above_or_own above deepest member guarded with
  | inl upper => exact reopened_iff.mpr ⟨root, present, above, upper⟩
  | inr own =>
    rw [own] at below
    have found := (firstGuard_below below deepest).trans (first name listed below)
    have shut := (blocked_iff_own_first present above deepest).mpr ⟨name, listed, below, found⟩
    rw [shut] at unblocked
    cases unblocked

end

section

variable {names root : List σ}

theorem guardOf_entry {other : List σ} :
    guardOf names (root ++ [name]) other = some (root ++ [name]) → other = root := by
  intro found
  obtain ⟨otherName, _, same, _⟩ := guardOf_eq_some.mp found
  exact (append_inj' same rfl).1

theorem firstGuard_flatten {groups : List (List (List σ))} {group : List (List σ)}
    (member : group ∈ groups) (present : root ∈ group) (listed : name ∈ names)
    (each : ∀ other ∈ groups, ∀ guard,
      firstGuard names other (root ++ [name]) = some guard → guard = root ++ [name]) :
    firstGuard names groups.flatten (root ++ [name]) = some (root ++ [name]) := by
  have found : (firstGuard names groups.flatten (root ++ [name])).isSome = true := by
    apply findSome?_isSome_iff.mpr
    refine ⟨root, mem_flatten.mpr ⟨group, member, present⟩, ?_⟩
    rw [guardOf_eq_some.mpr ⟨name, listed, rfl, prefix_refl _⟩]
    rfl
  have own : ∀ guard, firstGuard names groups.flatten (root ++ [name]) = some guard →
      guard = root ++ [name] := by
    clear found member present
    induction groups with
    | nil => nofun
    | cons head tail ih =>
      intro guard chosen
      rw [flatten_cons, firstGuard, findSome?_append] at chosen
      cases first : firstGuard names head (root ++ [name]) with
      | some other =>
        rw [firstGuard] at first
        rw [first] at chosen
        cases chosen
        exact each head mem_cons_self guard first
      | none =>
        rw [firstGuard] at first
        rw [first] at chosen
        exact ih (fun other member => each other (mem_cons_of_mem _ member)) guard chosen
  obtain ⟨guard, chosen⟩ := isSome_iff_exists.mp found
  rw [chosen, own guard chosen]

theorem firstGuard_hidden {before after : List (List σ)} {outer : List σ} {outerName : σ}
    (listed : outerName ∈ names) (inside : outer ++ [outerName] <+: root) (unseen : root ∉ before) :
    firstGuard names (before ++ outer :: after) (root ++ [name]) ≠ some (root ++ [name]) := by
  intro found
  have shorter := inside.length_le
  rw [firstGuard, findSome?_append, findSome?_cons] at found
  cases first : findSome? (guardOf names (root ++ [name])) before with
  | some guard =>
    rw [first] at found
    cases found
    obtain ⟨other, member, guarded⟩ := exists_of_findSome?_eq_some first
    exact unseen (guardOf_entry guarded ▸ member)
  | none =>
    have guarded := guardOf_eq_some.mpr
      ⟨outerName, listed, rfl, inside.trans (prefix_append root [name])⟩
    rw [first, guarded] at found
    have same := congrArg List.length (some.inj found)
    simp only [length_append, length_singleton] at same shorter
    omega

def comesFirst (names root : List σ) : List (List σ) → Bool
  | [] => true
  | head :: tail =>
    head = root ∨ (names.all fun name => ¬ head ++ [name] <+: root) ∧ comesFirst names root tail

theorem firstGuard_own_iff {roots : List (List σ)} (present : root ∈ roots)
    (listed : name ∈ names) :
    firstGuard names roots (root ++ [name]) = some (root ++ [name]) ↔
      comesFirst names root roots = true := by
  induction roots with
  | nil => cases present
  | cons head tail ih =>
    rw [firstGuard, findSome?_cons, comesFirst]
    by_cases same : head = root
    · rw [same, guardOf_eq_some.mpr ⟨name, listed, rfl, prefix_refl _⟩]
      simp
    · have later : root ∈ tail := by
        cases mem_cons.mp present with
        | inl equal => exact absurd equal.symm same
        | inr later => exact later
      by_cases apart : ∀ other ∈ names, ¬ head ++ [other] <+: root
      · have silent : guardOf names (root ++ [name]) head = none := by
          apply eq_none_iff_forall_ne_some.mpr
          intro guard found
          obtain ⟨other, member, rfl, below⟩ := guardOf_eq_some.mp found
          cases prefix_concat_iff.mp below with
          | inl equal => exact same (append_inj' equal rfl).1
          | inr inside => exact apart other member inside
        have skipped : (names.all fun other => decide ¬ head ++ [other] <+: root) = true := by
          simpa using apart
        rw [silent, skipped]
        simpa [same, firstGuard] using ih later
      · obtain ⟨other, member, inside⟩ : ∃ other ∈ names, head ++ [other] <+: root := by
          simpa using apart
        rw [guardOf_eq_some.mpr ⟨other, member, rfl, inside.trans (prefix_append _ _)⟩]
        have stopped : (names.all fun other => decide ¬ head ++ [other] <+: root) = false := by
          simpa using ⟨other, member, inside⟩
        rw [stopped]
        have long := inside.length_le
        simp only [length_append, length_singleton] at long
        constructor
        · intro equal
          have lengths := congrArg List.length (some.inj equal)
          simp only [length_append, length_singleton] at lengths
          omega
        · intro first
          simp [same] at first

end

end OpenInterpreter.ReservedNames
