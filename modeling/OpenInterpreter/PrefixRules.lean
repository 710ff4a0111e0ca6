import Mathlib.Data.List.MinMax
import Mathlib.Data.List.Infix
import Mathlib.Data.Prod.Lex
import Mathlib.Order.Basic

/-! Rules on the paths of a tree. The deepest rule on the way to a path decides, and of rules at the
same place the greatest value. Paths are lists from the root. -/

namespace OpenInterpreter.PrefixRules

open List Option

variable {σ α : Type}

abbrev Rules (σ α : Type) := List (List σ × α)

variable [LinearOrder α]

structure Decides (rules : Rules σ α) (path place : List σ) (value : α) : Prop where
  rule : (place, value) ∈ rules
  covers : place <+: path
  deepest : ∀ other, other ∈ rules → other.1 <+: path →
    other.1.length < place.length ∨ other.1 = place ∧ other.2 ≤ value

variable {rules : Rules σ α}

namespace Decides

variable {path place : List σ} {value : α}

theorem covers_place (decides : Decides rules path place value) {other : List σ × α}
    (member : other ∈ rules) (covers : other.1 <+: path) : other.1 <+: place := by
  apply prefix_of_prefix_length_le covers decides.covers
  cases decides.deepest other member covers with
  | inl shallower => exact Nat.le_of_lt shallower
  | inr same => exact Nat.le_of_eq (congrArg List.length same.1)

theorem level (decides : Decides rules path place value) {other : List σ × α}
    (member : other ∈ rules) (covers : other.1 <+: path) (below : place <+: other.1) :
    other.1 = place ∧ other.2 ≤ value := by
  cases decides.deepest other member covers with
  | inl shallower => exact absurd below.length_le (Nat.not_le_of_lt shallower)
  | inr same => exact same

theorem unique {other : List σ} {otherValue : α} (first : Decides rules path place value)
    (second : Decides rules path other otherValue) : place = other ∧ value = otherValue := by
  have back := second.level first.rule first.covers (first.covers_place second.rule second.covers)
  have forth := first.level second.rule second.covers (second.covers_place first.rule first.covers)
  exact ⟨back.1, le_antisymm back.2 forth.2⟩

theorem between (decides : Decides rules path place value) {middle : List σ}
    (below : place <+: middle) (above : middle <+: path) : Decides rules middle place value where
  rule := decides.rule
  covers := below
  deepest other member covers := decides.deepest other member (covers.trans above)

theorem self (decides : Decides rules path place value) : Decides rules place place value :=
  decides.between (prefix_refl _) decides.covers

theorem of_append {more : Rules σ α} (decides : Decides (rules ++ more) path place value)
    (rule : (place, value) ∈ rules) : Decides rules path place value where
  rule := rule
  covers := decides.covers
  deepest other member covers := decides.deepest other (mem_append_left _ member) covers

theorem congr {rules' : Rules σ α} (same : ∀ rule, rule ∈ rules ↔ rule ∈ rules')
    (decides : Decides rules path place value) : Decides rules' path place value where
  rule := (same _).mp decides.rule
  covers := decides.covers
  deepest other member covers := decides.deepest other ((same other).mpr member) covers

end Decides

def strongest (rules : Rules σ α) : Option (List σ × α) :=
  rules.argmax fun rule => toLex (rule.1.length, rule.2)

variable [DecidableEq σ]

def resolve (rules : Rules σ α) (path : List σ) : Option α :=
  (strongest (rules.filter fun rule => rule.1 <+: path)).map Prod.snd

variable {path : List σ}

theorem decides_of_strongest {rule : List σ × α}
    (found : strongest (rules.filter fun rule => rule.1 <+: path) = some rule) :
    Decides rules path rule.1 rule.2 := by
  have listed := mem_filter.mp (argmax_mem found)
  have covers : rule.1 <+: path := of_decide_eq_true listed.2
  refine ⟨listed.1, covers, ?_⟩
  intro other member above
  have kept : other ∈ rules.filter fun rule => rule.1 <+: path :=
    mem_filter.mpr ⟨member, decide_eq_true above⟩
  have bound := le_of_mem_argmax kept found
  cases Prod.Lex.toLex_le_toLex.mp bound with
  | inl shallower => exact .inl shallower
  | inr level =>
    have place : other.1 = rule.1 :=
      (prefix_of_prefix_length_le above covers (Nat.le_of_eq level.1)).eq_of_length level.1
    exact .inr ⟨place, level.2⟩

theorem exists_decides {rule : List σ × α} (member : rule ∈ rules) (covers : rule.1 <+: path) :
    ∃ place value, Decides rules path place value := by
  cases found : strongest (rules.filter fun rule => rule.1 <+: path) with
  | none =>
    have empty := argmax_eq_none.mp found
    have kept : rule ∈ rules.filter fun rule => rule.1 <+: path :=
      mem_filter.mpr ⟨member, decide_eq_true covers⟩
    rw [empty] at kept
    cases kept
  | some strongest => exact ⟨_, _, decides_of_strongest found⟩

theorem resolve_eq_some {value : α} :
    resolve rules path = some value ↔ ∃ place, Decides rules path place value := by
  constructor
  · intro resolved
    obtain ⟨rule, found, rfl⟩ := map_eq_some_iff.mp resolved
    exact ⟨rule.1, decides_of_strongest found⟩
  · rintro ⟨place, decides⟩
    cases found : strongest (rules.filter fun rule => rule.1 <+: path) with
    | none =>
      have empty := argmax_eq_none.mp found
      have kept : (place, value) ∈ rules.filter fun rule => rule.1 <+: path :=
        mem_filter.mpr ⟨decides.rule, decide_eq_true decides.covers⟩
      rw [empty] at kept
      cases kept
    | some rule =>
      have same := (decides_of_strongest found).unique decides
      rw [resolve, found, map_some, same.2]

theorem resolve_congr {rules' : Rules σ α} (same : ∀ rule, rule ∈ rules ↔ rule ∈ rules')
    (path : List σ) : resolve rules path = resolve rules' path := by
  ext value
  rw [resolve_eq_some, resolve_eq_some]
  exact exists_congr fun place =>
    ⟨fun decides => decides.congr same, fun decides => decides.congr fun rule => (same rule).symm⟩

end OpenInterpreter.PrefixRules
